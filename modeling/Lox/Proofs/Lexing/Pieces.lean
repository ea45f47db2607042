/-
What becomes of every character of a source.

A source is cut into pieces, one after the other, and each piece is what the text that
follows it lets it be.  The tokens and the faults of a source are those of its pieces, each
on the line on which its piece ends.

* `Piece.Fits`, `Piece.Cut` — what a piece may be, and pieces that make up a text;
* `TokenStream.ofPieces_eq` — the line of a piece by its place;
* `TokenStream.accounts_for_source` — nothing is lost and lines are counted right.
-/
import Mathlib.Data.List.Basic
import Mathlib.Data.List.TakeWhile
import Lox.Proofs.Lexing.Words
import Lox.Source

namespace Lox

open Token

namespace Piece

/-- The four characters that may stand between tokens. -/
def Blank (c : Char) : Prop :=
  c = ' ' ∨ c = '\t' ∨ c = '\r' ∨ c = '\n'

instance : DecidablePred Blank := fun c =>
  inferInstanceAs (Decidable (c = ' ' ∨ c = '\t' ∨ c = '\r' ∨ c = '\n'))

theorem isBlank_iff {c : Char} : isBlank c = true ↔ Blank c := by
  simp only [isBlank, Blank, Bool.or_eq_true, decide_eq_true_eq, or_assoc, or_left_comm]

theorem isBlank_eq_false_iff {c : Char} : isBlank c = false ↔ ¬ Blank c := by
  rw [← isBlank_iff, Bool.not_eq_true]

/-- What a piece may be when this text follows.  A run of blanks and a comment go on as far
as they can, a token is the longest word and does not open a comment, and bad text is an
open quote with all that follows or one character that starts no word. -/
def Fits (rest : List Char) : Piece → Prop
  | blank text => text ≠ [] ∧ (∀ c ∈ text, Blank c) ∧ ∀ c ∈ rest.head?, ¬ Blank c
  | comment text =>
    ∃ body, text = '/' :: '/' :: body ∧ '\n' ∉ body ∧ ∀ c ∈ rest.head?, c = '\n'
  | token kind text => LongestWord kind text (text ++ rest) ∧ ¬ ['/', '/'] <+: text ++ rest
  | bad .unterminatedString text => ∃ body, text = '"' :: body ∧ '"' ∉ body ∧ rest = []
  | bad (.unexpectedCharacter c) text =>
    text = [c] ∧ ∀ kind word, Word kind word → word.head? ≠ some c

/-- The pieces make up the text, and each of them is what the text after it lets it be. -/
inductive Cut : List Piece → List Char → Prop
  | nil : Cut [] []
  | cons {piece : Piece} {pieces : List Piece} {rest : List Char} (fits : piece.Fits rest)
    (others : Cut pieces rest) : Cut (piece :: pieces) (piece.text ++ rest)

variable {source : List Char} {pieces : List Piece}

theorem fits_blank (h : source.takeWhile isBlank ≠ []) :
    (blank (source.takeWhile isBlank)).Fits (source.dropWhile isBlank) := by
  refine ⟨h, fun c hc => isBlank_iff.mp (List.mem_takeWhile_imp hc), fun c hc => ?_⟩
  have hstop := List.head?_dropWhile_not isBlank source
  rw [Option.mem_def] at hc
  rw [hc] at hstop
  exact isBlank_eq_false_iff.mp hstop

theorem fits_comment (h : ['/', '/'] <+: source) :
    (comment (source.takeWhile (· ≠ '\n'))).Fits (source.dropWhile (· ≠ '\n')) := by
  obtain ⟨body, rfl⟩ := h
  refine ⟨body.takeWhile (· ≠ '\n'), by simp, fun hmem => ?_, fun c hc => ?_⟩
  · simpa using List.mem_takeWhile_imp hmem
  · have hstop := List.head?_dropWhile_not (· ≠ '\n') (['/', '/'] ++ body)
    rw [Option.mem_def] at hc
    rw [hc] at hstop
    simpa using hstop

theorem fits_token {front : Front Kind} (hne : source ≠ []) (hcomment : ¬ ['/', '/'] <+: source)
    (h : scan source = .token front) : (token front.value front.text).Fits front.rest := by
  obtain ⟨hword, happend⟩ := (scan_eq_token_iff hne).mp h
  rw [← happend] at hword hcomment
  exact ⟨hword, hcomment⟩

theorem fits_bad {front : Front LexicalError} (h : scan source = .bad front) :
    (bad front.value front.text).Fits front.rest := by
  rcases bad_of_scan h with ⟨body, hclosed, rfl⟩ | ⟨c, rest, rfl, hstarts⟩
  · exact ⟨body, rfl, hclosed, rfl⟩
  · exact ⟨rfl, hstarts⟩

/-- The first piece of a source is what the rest of the source lets it be. -/
theorem fits_first (hne : source ≠ []) : (first source).1.Fits (first source).2 := by
  unfold first
  split
  · rename_i hblank
    exact fits_blank hblank
  · split
    · rename_i hcomment
      exact fits_comment (List.isPrefixOf_iff_prefix.mp hcomment)
    · rename_i hcomment
      rw [List.isPrefixOf_iff_prefix] at hcomment
      split
      · rename_i front hscan
        exact fits_token hne hcomment hscan
      · rename_i front hscan
        exact fits_bad hscan

theorem cut_ofSource (source : List Char) : Cut (ofSource source) source := by
  induction source using ofSource.induct with
  | case1 =>
    rw [ofSource_nil]
    exact .nil
  | case2 source hne ih =>
    have hcons := Cut.cons (fits_first hne) ih
    rwa [first_append, ← ofSource_of_ne_nil hne] at hcons

theorem Cut.flatMap_text (h : Cut pieces source) : pieces.flatMap text = source := by
  induction h with
  | nil => rfl
  | cons fits others ih => rw [List.flatMap_cons, ih]

/-- No piece is empty. -/
theorem Fits.text_ne_nil {piece : Piece} {rest : List Char} (h : piece.Fits rest) :
    piece.text ≠ [] := by
  match piece, h with
  | blank text, ⟨hne, _⟩ => exact hne
  | comment text, ⟨body, htext, _⟩ => exact htext ▸ List.cons_ne_nil _ _
  | token kind text, ⟨hword, _⟩ =>
    obtain ⟨c, cs, htext, -⟩ := hword.word.startsWith
    exact htext ▸ List.cons_ne_nil c cs
  | bad .unterminatedString text, ⟨body, htext, _⟩ => exact htext ▸ List.cons_ne_nil _ _
  | bad (.unexpectedCharacter c) text, ⟨htext, _⟩ => exact htext ▸ List.cons_ne_nil _ _

theorem Cut.eq_nil (h : Cut pieces []) : pieces = [] := by
  -- no piece is empty, though `cases` cannot see it in `piece.text ++ rest`
  generalize hsource : ([] : List Char) = source at h
  cases h with
  | nil => rfl
  | cons fits others => exact absurd (List.append_eq_nil_iff.mp hsource.symm).1 fits.text_ne_nil

/-- An open quote takes all that follows, so nothing comes after it. -/
theorem Cut.last_of_unterminated (h : Cut pieces source) {i : Nat} {spoiled : List Char}
    (hi : pieces[i]? = some (.bad .unterminatedString spoiled)) : i + 1 = pieces.length := by
  induction h generalizing i with
  | nil => cases hi
  | @cons piece pieces rest fits others ih =>
    cases i with
    | zero =>
      obtain rfl : piece = .bad .unterminatedString spoiled := by simpa using hi
      obtain ⟨body, -, -, rfl⟩ := fits
      rw [others.eq_nil]
      rfl
    | succ i =>
      rw [List.getElem?_cons_succ] at hi
      rw [ih hi, List.length_cons]

/-- The tokens that are pieces are words. -/
theorem Cut.word (h : Cut pieces source) {kind : Kind} {text : List Char}
    (hmem : .token kind text ∈ pieces) : Word kind text := by
  induction h with
  | nil => cases hmem
  | cons fits others ih =>
    rcases List.mem_cons.mp hmem with rfl | hmem
    · exact fits.1.word
    · exact ih hmem

/-! ### Lines -/

/-- The pieces with the lines on which they end, when the first of them starts on this
line. -/
def located (line : Nat) (pieces : List Piece) : List (Piece × Nat) :=
  pieces.mapIdx fun i piece =>
    (piece, line + ((pieces.take (i + 1)).flatMap text).count '\n')

theorem located_cons (line : Nat) (piece : Piece) (pieces : List Piece) :
    located line (piece :: pieces) =
      (piece, line + piece.text.count '\n') ::
        located (line + piece.text.count '\n') pieces := by
  simp only [located, List.mapIdx_cons, List.take_succ_cons, List.flatMap_cons, List.count_append,
    List.take_zero, List.flatMap_nil, List.count_nil, Nat.add_zero, Nat.add_assoc]

theorem mem_of_mem_located {line : Nat} {entry : Piece × Nat} (h : entry ∈ located line pieces) :
    entry.1 ∈ pieces := by
  obtain ⟨i, hi, rfl⟩ := List.mem_mapIdx.mp h
  exact List.getElem_mem hi

/-- The lines of pieces are between the first and the last line. -/
theorem line_of_mem_located {line : Nat} {entry : Piece × Nat} (h : entry ∈ located line pieces) :
    line ≤ entry.2 ∧ entry.2 ≤ line + (pieces.flatMap text).count '\n' := by
  induction pieces generalizing line with
  | nil => cases h
  | cons piece pieces ih =>
    rw [located_cons] at h
    rw [List.flatMap_cons, List.count_append]
    rcases List.mem_cons.mp h with rfl | h
    · constructor <;> dsimp only <;> omega
    · obtain ⟨hfirst, hlast⟩ := ih h
      constructor <;> omega

theorem located_pairwise (line : Nat) (pieces : List Piece) :
    (located line pieces).Pairwise (·.2 ≤ ·.2) := by
  induction pieces generalizing line with
  | nil => exact .nil
  | cons piece pieces ih =>
    rw [located_cons]
    exact .cons (fun entry hentry => (line_of_mem_located hentry).1) (ih _)

/-- The token that a piece is, if it is one. -/
def token? : Piece × Nat → Option Token
  | (token kind text, line) => some ⟨kind, String.ofList text, line⟩
  | _ => none

/-- What is wrong with a piece, if it is bad text. -/
def fault? : Piece × Nat → Option Diagnostic
  | (bad error _, line) => some ⟨line, .line, error.message⟩
  | _ => none

theorem line_of_token? {entry : Piece × Nat} {t : Token} (h : token? entry = some t) :
    t.line = entry.2 := by
  obtain ⟨piece, line⟩ := entry
  cases piece <;> cases h
  rfl

theorem line_of_fault? {entry : Piece × Nat} {d : Diagnostic} (h : fault? entry = some d) :
    d.line = entry.2 := by
  obtain ⟨piece, line⟩ := entry
  cases piece <;> cases h
  rfl

end Piece

namespace TokenStream

open Piece

/-- The tokens and the faults are those of the pieces. -/
theorem ofPieces_eq (line : Nat) (pieces : List Piece) :
    ofPieces line pieces =
      ⟨(located line pieces).filterMap token? ++
          [⟨.endOfFile, "", line + (pieces.flatMap text).count '\n'⟩],
        (located line pieces).filterMap fault?⟩ := by
  induction pieces generalizing line with
  | nil => rfl
  | cons piece pieces ih =>
    rw [located_cons, List.flatMap_cons, List.count_append, ← Nat.add_assoc]
    cases piece <;> simp only [ofPieces, ih] <;> rfl

theorem ofSource_eq (source : String) :
    ofSource source =
      ⟨(located 1 (Piece.ofSource source.toList)).filterMap token? ++
          [⟨.endOfFile, "", 1 + source.toList.count '\n'⟩],
        (located 1 (Piece.ofSource source.toList)).filterMap fault?⟩ := by
  rw [ofSource, ofPieces_eq, (cut_ofSource source.toList).flatMap_text]

/-- The tokens of a source but for the last one are words. -/
theorem word_of_mem_ofPieces {line : Nat} {source : List Char} {t : Token}
    (h : t ∈ (ofPieces line (Piece.ofSource source)).tokens.dropLast) :
    Word t.kind t.lexeme.toList := by
  rw [ofPieces_eq, List.dropLast_concat] at h
  obtain ⟨⟨piece, line⟩, hentry, htoken⟩ := List.mem_filterMap.mp h
  have hpiece := mem_of_mem_located hentry
  cases piece with
  | token kind text =>
    cases htoken
    rw [String.toList_ofList]
    exact (cut_ofSource source).word hpiece
  | _ => cases htoken

/-- What is taken from pieces has their lines, so it is in their order. -/
theorem lines_pairwise {α : Type} {f : Piece × Nat → Option α} {lineOf : α → Nat}
    (hline : ∀ {entry a}, f entry = some a → lineOf a = entry.2) (line : Nat)
    (pieces : List Piece) :
    (((located line pieces).filterMap f).map lineOf).Pairwise (· ≤ ·) := by
  rw [List.pairwise_map]
  refine (located_pairwise line pieces).filterMap f fun entry entry' hle a ha a' ha' => ?_
  rw [hline ha, hline ha']
  exact hle

/-- Every character of a source is in a piece, and the pieces give its tokens and its
faults, one after the other.  Each of them is on the line of the source where its piece
ends, so lines never decrease.  After the last piece there is one token for the end of the
file, and an open quote can only be in the last piece. -/
theorem accounts_for_source (source : String) :
    ∃ pieces : List Piece,
      pieces.flatMap text = source.toList ∧ Cut pieces source.toList ∧
        (ofSource source).tokens = (located 1 pieces).filterMap token? ++
          [⟨.endOfFile, "", 1 + source.toList.count '\n'⟩] ∧
        (ofSource source).diagnostics = (located 1 pieces).filterMap fault? ∧
        (∀ kind text, .token kind text ∈ pieces → kind ≠ .endOfFile) ∧
        (∀ i spoiled, pieces[i]? = some (.bad .unterminatedString spoiled) →
          i + 1 = pieces.length) ∧
        ((ofSource source).tokens.map Token.line).Pairwise (· ≤ ·) ∧
        ((ofSource source).diagnostics.map Diagnostic.line).Pairwise (· ≤ ·) := by
  have hcut := cut_ofSource source.toList
  have hsource := ofSource_eq source
  refine ⟨_, hcut.flatMap_text, hcut, congrArg tokens hsource, congrArg diagnostics hsource,
    fun kind text hmem => ?_, fun i spoiled hi => hcut.last_of_unterminated hi, ?_, ?_⟩
  · rintro rfl
    cases hcut.word hmem
  · have hend : ∀ token ∈ (located 1 (Piece.ofSource source.toList)).filterMap token?,
        token.line ≤ 1 + source.toList.count '\n' := by
      intro token hmem
      obtain ⟨entry, hentry, htoken⟩ := List.mem_filterMap.mp hmem
      have hlast := (line_of_mem_located hentry).2
      rwa [hcut.flatMap_text, ← line_of_token? htoken] at hlast
    rw [hsource, List.map_append, List.pairwise_append]
    refine ⟨lines_pairwise line_of_token? 1 _, List.pairwise_singleton _ _, ?_⟩
    intro l hl last hlast
    obtain ⟨token, htoken, rfl⟩ := List.mem_map.mp hl
    obtain rfl := List.mem_singleton.mp hlast
    exact hend token htoken
  · rw [hsource]
    exact lines_pairwise line_of_fault? 1 _

end TokenStream

end Lox
