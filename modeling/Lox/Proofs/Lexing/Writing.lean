/-
Tokens that are written out are read back.

Words are written one after the other with separators between them.  A separator starts
with a blank, so no word goes on into it; what else is in it are blanks and comments.

* `Lexeme`, `Separator` — words with their kinds, and what may stand between two of them;
* `TokenStream.ofChars_lexeme` — a word in front of a separator is read as it was written;
* `TokenStream.ofSource_written` — so are all words, each on the line where it ends.
-/
import Lox.Proofs.Lexing.Pieces
import Lox.Proofs.Lexing.Seams

namespace Lox

open Token

/-- A word and its kind. -/
structure Lexeme where
  kind : Kind
  text : List Char
  word : Word kind text

/-- The kind and the text of a word. -/
def Lexeme.shown (lexeme : Lexeme) : Kind × String :=
  (lexeme.kind, String.ofList lexeme.text)

/-- The kind and the text of a token. -/
def Token.shown (t : Token) : Kind × String :=
  (t.kind, t.lexeme)

/-- Blanks and comments, each comment with the newline that ends it. -/
inductive Gap : List Char → Prop
  | nil : Gap []
  | blank {c : Char} {gap : List Char} (first : Piece.Blank c) (others : Gap gap) :
    Gap (c :: gap)
  | comment {body gap : List Char} (closed : '\n' ∉ body) (others : Gap gap) :
    Gap ('/' :: '/' :: body ++ '\n' :: gap)

/-- What may stand between two words: a blank, and then more blanks and comments. -/
structure Separator where
  first : Char
  others : List Char
  blank : Piece.Blank first
  gap : Gap others

namespace Separator

/-- The characters of a separator. -/
def text (s : Separator) : List Char :=
  s.first :: s.others

/-- A single space. -/
def space : Separator :=
  ⟨' ', [], .inl rfl, .nil⟩

/-- The characters of a separator that may be left out. -/
def optional : Option Separator → List Char
  | none => []
  | some s => s.text

theorem gap_text (s : Separator) : Gap s.text :=
  .blank s.blank s.gap

theorem gap_optional (s : Option Separator) : Gap (optional s) := by
  cases s with
  | none => exact .nil
  | some s => exact s.gap_text

end Separator

/-- Words with separators between them, the first of which stands after the first word. -/
def written (between : Nat → Separator) : List Lexeme → List Char
  | [] => []
  | [lexeme] => lexeme.text
  | lexeme :: next :: lexemes =>
    lexeme.text ++ ((between 0).text ++ written (fun i => between (i + 1)) (next :: lexemes))

/-! ### Blanks and words -/

namespace Token

variable {kind kind' : Kind} {text text' : List Char} {c : Char} {cs : List Char}

theorem not_digit_of_blank (h : Piece.Blank c) : Decimal.isDigit c = false := by
  rcases h with rfl | rfl | rfl | rfl <;> rfl

theorem not_name_of_blank (h : Piece.Blank c) : continuesName c = false := by
  rcases h with rfl | rfl | rfl | rfl <;> decide

theorem symbol_not_blank (s : Symbol) : ∀ c ∈ s.text.toList, ¬ Piece.Blank c := by
  have hall : s.text.toList.all (fun c => ¬ Piece.Blank c) = true := by cases s <;> decide
  intro c hc
  simpa using List.all_eq_true.mp hall c hc

/-- Of all words only strings have blanks in them. -/
theorem Word.blank_mem (h : Word kind text) (hmem : c ∈ text) (hblank : Piece.Blank c) :
    ∃ s, kind = .string s := by
  have hdigit := not_digit_of_blank hblank
  have hname := not_name_of_blank hblank
  have habsurd : ∀ {b : Bool}, b = true → b = false → False := by simp
  have hstart : startsName c = false := by
    simp only [continuesName, Bool.or_eq_false_iff] at hname
    exact hname.1
  have hwhole : ∀ {whole : List Char}, Digits whole → c ∉ whole := fun digits hc =>
    habsurd (digits.isDigit c hc) hdigit
  have hspelled : ∀ {d : Char} {ds : List Char}, startsName d = true →
      (∀ d ∈ ds, continuesName d = true) → c ∉ d :: ds := by
    intro d ds hfirst hothers hc
    rcases List.mem_cons.mp hc with rfl | hc
    · exact habsurd hfirst hstart
    · exact habsurd (hothers c hc) hname
  cases h with
  | symbol s => exact absurd hblank (symbol_not_blank s c hmem)
  | keyword k =>
    obtain ⟨d, ds, htext, hfirst, hothers⟩ := keyword_isName k
    exact absurd (htext ▸ hmem) (hspelled hfirst hothers)
  | identifier first others free => exact absurd hmem (hspelled first others)
  | string closed => exact ⟨_, rfl⟩
  | integer digits => exact absurd hmem (hwhole digits)
  | decimal digits places =>
    rcases List.mem_append.mp hmem with hc | hc
    · exact absurd hc (hwhole digits)
    · rcases List.mem_cons.mp hc with rfl | hc
      · exact absurd hblank (by decide)
      · exact absurd hc (hwhole places)

theorem Word.quote_not_mem {s : String} (h : Word (.string s) text) : '"' ∉ s.toList := by
  cases h with
  | string closed => rwa [String.toList_ofList]

/-- A string does not go on after its second quote. -/
theorem Word.string_eq {s : String} (h : Word (.string s) text') (hword : Word kind text)
    (hfront : text <+: text') : text = text' := by
  obtain ⟨c, cs, rfl, hstarts⟩ := hword.startsWith
  obtain ⟨d, ds, hds, hstarts'⟩ := h.startsWith
  obtain rfl : c = d := by
    rw [hds] at hfront
    exact (List.cons_prefix_cons.mp hfront).1
  -- a word that starts with a quote is a string too
  obtain ⟨t, rfl⟩ : ∃ t, kind = .string t := by
    rcases Kind.startsWith_cases hstarts hstarts' with
      ⟨_, _, -, h⟩ | ⟨-, h | ⟨_, h⟩⟩ | ⟨t, _, h, -⟩ | ⟨_, _, -, h⟩
    · cases h
    · cases h
    · cases h
    · exact ⟨t, h⟩
    · cases h
  rw [hword.text_string, h.text_string] at hfront ⊢
  rw [List.cons_append, List.cons_append, List.cons_prefix_cons] at hfront
  rcases List.prefix_concat_iff.mp hfront.2 with hsame | hinner
  · rw [List.cons_append, hsame, List.cons_append]
  · have hquote : '"' ∈ s.toList := hinner.subset (List.mem_append_right _ List.mem_cons_self)
    exact absurd hquote h.quote_not_mem

/-- No word goes on into a blank. -/
theorem longestWord_of_blank (h : Word kind text) {rest : List Char}
    (hrest : ∀ c ∈ rest.head?, Piece.Blank c) : LongestWord kind text (text ++ rest) := by
  refine ⟨h, List.prefix_append _ _, fun kind' text' hword hfront => ?_⟩
  by_contra hlonger
  have hprefix : text <+: text' :=
    List.prefix_of_prefix_length_le (List.prefix_append _ _) hfront (by omega)
  obtain ⟨more, rfl⟩ := hprefix
  rw [List.prefix_append_right_inj] at hfront
  cases more with
  | nil => simp at hlonger
  | cons c more =>
    have hblank : Piece.Blank c := by
      refine hrest c ?_
      obtain ⟨others, rfl⟩ := hfront
      rfl
    -- the longer word has a blank in it, so it is a string, and that ended before
    obtain ⟨s, rfl⟩ := hword.blank_mem (List.mem_append_right text List.mem_cons_self) hblank
    have hsame := hword.string_eq h (List.prefix_append _ _)
    rw [← hsame] at hlonger
    exact hlonger (Nat.le_refl _)

/-- The first character of a word is no blank. -/
theorem Word.first_not_blank (h : Word kind (c :: cs)) : ¬ Piece.Blank c := by
  intro hblank
  obtain ⟨s, rfl⟩ := h.blank_mem List.mem_cons_self hblank
  have hc := List.head_eq_of_cons_eq h.text_string
  subst hc
  exact absurd hblank (by decide)

/-- A word that starts with a slash is a slash. -/
theorem Word.slash (h : Word kind ('/' :: cs)) : cs = [] := by
  have hall : ∀ s : Symbol, s.text.toList = '/' :: cs → cs = [] := by
    intro s hs
    have hslash : ∀ s ∈ Symbol.all, s.text.toList.head? = some '/' → s.text.toList = ['/'] := by
      decide
    have hone := hslash s s.mem_all (by rw [hs]; rfl)
    rw [hs] at hone
    exact (List.cons.inj hone).2
  obtain ⟨c, cs, htext, hstarts⟩ := h.startsWith
  cases htext
  cases kind with
  | symbol s => exact hall s h.text_symbol.symm
  | keyword k => cases hstarts
  | identifier => cases hstarts
  | string s => cases hstarts
  | number x => cases hstarts
  | endOfFile => exact hstarts.elim

/-- No comment starts with a word in front of a blank. -/
theorem Word.not_comment (h : Word kind text) {rest : List Char}
    (hrest : ∀ c ∈ rest.head?, Piece.Blank c) : ¬ ['/', '/'] <+: text ++ rest := by
  rintro ⟨more, hmore⟩
  obtain ⟨c, cs, rfl, -⟩ := h.startsWith
  obtain rfl : '/' = c := List.head_eq_of_cons_eq hmore
  obtain rfl := h.slash
  have hslash : rest.head? = some '/' := by
    obtain rfl := (List.cons.inj hmore).2
    rfl
  exact absurd (hrest '/' hslash) (by decide)

end Token

/-! ### Reading back -/

namespace Piece

variable {kind : Kind} {text rest : List Char}

/-- A word in front of a blank is a piece. -/
theorem first_word (h : Word kind text) (hrest : ∀ c ∈ rest.head?, Blank c) :
    first (text ++ rest) = (.token kind text, rest) := by
  obtain ⟨c, cs, rfl, -⟩ := h.startsWith
  have hblank : ((c :: cs) ++ rest).takeWhile isBlank = [] := by
    simp [isBlank_eq_false_iff.mpr h.first_not_blank]
  have hcomment : ¬ ['/', '/'].isPrefixOf ((c :: cs) ++ rest) = true := by
    rw [List.isPrefixOf_iff_prefix]
    exact h.not_comment hrest
  have hscan : scan ((c :: cs) ++ rest) = .token ⟨kind, c :: cs, rest⟩ :=
    (scan_eq_token_iff (by simp)).mpr ⟨longestWord_of_blank h hrest, rfl⟩
  unfold first
  rw [if_neg (not_not_intro hblank), if_neg hcomment, hscan]

/-- A comment goes on to the end of its line. -/
theorem first_comment {body : List Char} (h : '\n' ∉ body) (rest : List Char) :
    first ('/' :: '/' :: body ++ '\n' :: rest) =
      (.comment ('/' :: '/' :: body), '\n' :: rest) := by
  have hbody : ∀ c ∈ '/' :: '/' :: body, decide (c ≠ '\n') = true := by
    simp only [ne_eq, decide_not, Bool.not_eq_eq_eq_not, Bool.not_true, decide_eq_false_iff_not]
    rintro c hc rfl
    simp [h] at hc
  unfold first
  rw [if_neg (by simp [isBlank]), if_pos (by simp [List.isPrefixOf]),
    List.takeWhile_append_of_pos hbody, List.dropWhile_append_of_pos hbody]
  simp

end Piece

namespace TokenStream

/-- What stands between tokens only moves what follows. -/
theorem ofChars_gap {gap : List Char} (h : Gap gap) (line : Nat) (rest : List Char) :
    ofChars line (gap ++ rest) = ofChars (line + gap.count '\n') rest := by
  induction h generalizing line with
  | nil => rfl
  | @blank c gap first others ih =>
    have hblank : ∀ d ∈ [c], Piece.isBlank d = true :=
      List.forall_mem_singleton.mpr (Piece.isBlank_iff.mpr first)
    have hc := ofChars_blanks hblank line (gap ++ rest)
    rw [List.singleton_append] at hc
    rw [List.cons_append, hc, ih, Nat.add_assoc, ← List.count_append, List.singleton_append]
  | @comment body gap closed others ih =>
    have hsource : ('/' :: '/' :: body ++ '\n' :: gap) ++ rest =
        '/' :: '/' :: body ++ '\n' :: (gap ++ rest) := by simp
    have hcount : ('/' :: '/' :: body ++ '\n' :: gap).count '\n' =
        ('/' :: '/' :: body).count '\n' + (1 + gap.count '\n') := by
      rw [List.count_append, List.count_cons_self, Nat.add_comm 1]
    -- the newline is not in the comment; it is a blank of its own
    have hnewline : ∀ line, ofChars line ('\n' :: (gap ++ rest)) =
        ofChars (line + 1) (gap ++ rest) := fun line =>
      ofChars_blanks (List.forall_mem_singleton.mpr rfl) line (gap ++ rest)
    have hne : '/' :: '/' :: body ++ '\n' :: (gap ++ rest) ≠ [] := List.cons_ne_nil _ _
    rw [hsource, ofChars_of_ne_nil line hne, Piece.first_comment closed]
    show ofChars (line + ('/' :: '/' :: body).count '\n') ('\n' :: (gap ++ rest)) = _
    rw [hnewline, ih, hcount, Nat.add_assoc, Nat.add_assoc]

/-- A word in front of a blank is read as it was written. -/
theorem ofChars_lexeme (lexeme : Lexeme) {rest : List Char}
    (hrest : ∀ c ∈ rest.head?, Piece.Blank c) (line : Nat) :
    ofChars line (lexeme.text ++ rest) =
      before (line + lexeme.text.count '\n') (ofChars (line + lexeme.text.count '\n') rest)
        (.token lexeme.kind lexeme.text) := by
  obtain ⟨kind, text, word⟩ := lexeme
  have hne : text ++ rest ≠ [] := by
    obtain ⟨c, cs, rfl, -⟩ := word.startsWith
    simp
  rw [ofChars_of_ne_nil line hne, Piece.first_word word hrest]
  rfl

variable {between : Nat → Separator} {lexemes : List Lexeme}

/-- The tokens of words that are written from this line on.  A word ends as many lines
further down as there are newlines up to its end. -/
def tokensOf (line : Nat) (between : Nat → Separator) (lexemes : List Lexeme) : List Token :=
  lexemes.mapIdx fun i lexeme => ⟨lexeme.kind, String.ofList lexeme.text,
    line + (written between (lexemes.take (i + 1))).count '\n'⟩

theorem tokensOf_cons_cons (line : Nat) (between : Nat → Separator) (lexeme next : Lexeme)
    (lexemes : List Lexeme) :
    tokensOf line between (lexeme :: next :: lexemes) =
      ⟨lexeme.kind, String.ofList lexeme.text, line + lexeme.text.count '\n'⟩ ::
        tokensOf (line + lexeme.text.count '\n' + (between 0).text.count '\n')
          (fun i => between (i + 1)) (next :: lexemes) := by
  simp only [tokensOf, List.mapIdx_cons, List.take_succ_cons, List.take_zero, written,
    List.count_append, Nat.add_assoc]

/-- Words that are written out are read back, if no word can go on into what follows. -/
theorem ofChars_written {rest : List Char} (hrest : ∀ c ∈ rest.head?, Piece.Blank c)
    (line : Nat) :
    ofChars line (written between lexemes ++ rest) =
      let below := ofChars (line + (written between lexemes).count '\n') rest
      ⟨tokensOf line between lexemes ++ below.tokens, below.diagnostics⟩ := by
  induction lexemes generalizing between line with
  | nil => rfl
  | cons lexeme lexemes ih =>
    cases lexemes with
    | nil => exact ofChars_lexeme lexeme hrest line
    | cons next lexemes =>
      -- a separator starts with a blank, so the word before it ends there
      have hblank : ∀ (s : Separator) (rest : List Char),
          ∀ c ∈ (s.text ++ rest).head?, Piece.Blank c := by
        rintro s rest c hc
        obtain rfl : s.first = c := by simpa [Separator.text] using hc
        exact s.blank
      rw [written, List.append_assoc, List.append_assoc, ofChars_lexeme lexeme (hblank _ _),
        ofChars_gap (Separator.gap_text _), ih, tokensOf_cons_cons, List.count_append,
        List.count_append, ← Nat.add_assoc, ← Nat.add_assoc]
      rfl

/-! ### Tokens that were read before -/

theorem toList_intercalate_space (lexemes : List Lexeme) :
    (String.intercalate " " ((lexemes.map Lexeme.shown).map Prod.snd)).toList =
      written (fun _ => Separator.space) lexemes := by
  rw [String.toList_intercalate, List.map_map, List.map_map]
  induction lexemes with
  | nil => rfl
  | cons lexeme lexemes ih =>
    cases lexemes with
    | nil => simp [written, Lexeme.shown]
    | cons next lexemes =>
      rw [List.map_cons, List.map_cons, List.intercalate_cons_cons, ← List.map_cons, ih]
      simp [written, Lexeme.shown, Separator.text, Separator.space]

/-- Words with their kinds are lexemes. -/
theorem exists_lexemes {tokens : List Token} (h : ∀ t ∈ tokens, Word t.kind t.lexeme.toList) :
    ∃ lexemes : List Lexeme, lexemes.map Lexeme.shown = tokens.map Token.shown := by
  induction tokens with
  | nil => exact ⟨[], rfl⟩
  | cons t tokens ih =>
    obtain ⟨hfirst, hothers⟩ := List.forall_mem_cons.mp h
    obtain ⟨lexemes, hlexemes⟩ := ih hothers
    refine ⟨⟨t.kind, t.lexeme.toList, hfirst⟩ :: lexemes, ?_⟩
    rw [List.map_cons, List.map_cons, hlexemes, Lexeme.shown, String.ofList_toList]
    rfl

/-- Texts that are written with single spaces between them are read without a fault, as
tokens of the given kinds. -/
def ReadBack (words : List (Kind × String)) : Prop :=
  let stream := ofSource (String.intercalate " " (words.map Prod.snd))
  stream.diagnostics = [] ∧
    stream.tokens.map Token.shown = words ++ [(.endOfFile, "")]

theorem map_tokensOf (line : Nat) (between : Nat → Separator) (lexemes : List Lexeme) :
    (tokensOf line between lexemes).map Token.shown = lexemes.map Lexeme.shown := by
  refine List.ext_getElem (by simp [tokensOf]) fun i _ _ => ?_
  simp [tokensOf, Token.shown, Lexeme.shown]

theorem ofChars_optional (s : Option Separator) (line : Nat) :
    ofChars line (Separator.optional s) =
      ⟨[⟨.endOfFile, "", line + (Separator.optional s).count '\n'⟩], []⟩ := by
  have hgap := ofChars_gap (Separator.gap_optional s) line []
  rw [List.append_nil] at hgap
  rw [hgap, ofChars, Piece.ofSource_nil]
  rfl

theorem optional_blank (s : Option Separator) :
    ∀ c ∈ (Separator.optional s).head?, Piece.Blank c := by
  intro c hc
  cases s with
  | none => cases hc
  | some s =>
    obtain rfl : s.first = c := by simpa [Separator.optional, Separator.text] using hc
    exact s.blank

theorem ofChars_written_optional (first last : Option Separator) :
    ofChars 1 (Separator.optional first ++ (written between lexemes ++ Separator.optional last)) =
      ⟨tokensOf (1 + (Separator.optional first).count '\n') between lexemes ++
        [⟨.endOfFile, "", 1 + (Separator.optional first ++
          (written between lexemes ++ Separator.optional last)).count '\n'⟩], []⟩ := by
  rw [ofChars_gap (Separator.gap_optional first), ofChars_written (optional_blank last),
    ofChars_optional, List.count_append, List.count_append, Nat.add_assoc, Nat.add_assoc]

theorem readBack_lexemes (lexemes : List Lexeme) : ReadBack (lexemes.map Lexeme.shown) := by
  have hread : ofChars 1 ([] ++ (written (fun _ => .space) lexemes ++ [])) = _ :=
    ofChars_written_optional none none
  have hsource : ofSource (String.intercalate " " ((lexemes.map Lexeme.shown).map Prod.snd)) =
      ofChars 1 (written (fun _ => .space) lexemes) := by
    rw [ofSource, toList_intercalate_space]
    rfl
  rw [List.nil_append, List.append_nil] at hread
  unfold ReadBack
  rw [hsource, hread]
  refine ⟨rfl, ?_⟩
  rw [List.map_append, map_tokensOf]
  rfl

/-- Words that are written out, with any separators between them and perhaps one before and
one after them, are read without a fault: each of them is a token of its kind with its text,
on the line where it ends, and nothing else is.  In particular words that are written with
single spaces between them are read back, and so are the tokens of any source. -/
theorem ofSource_written (first last : Option Separator) (between : Nat → Separator)
    (lexemes : List Lexeme) :
    let text := Separator.optional first ++ (written between lexemes ++ Separator.optional last)
    ofSource (String.ofList text) =
        ⟨tokensOf (1 + (Separator.optional first).count '\n') between lexemes ++
          [⟨.endOfFile, "", 1 + text.count '\n'⟩], []⟩ ∧
      ReadBack (lexemes.map Lexeme.shown) ∧
      ∀ source, ReadBack ((ofSource source).tokens.dropLast.map Token.shown) := by
  intro text
  refine ⟨?_, readBack_lexemes lexemes, fun source => ?_⟩
  · rw [ofSource, String.toList_ofList]
    exact ofChars_written_optional first last
  · have hwords : ∀ t ∈ (ofSource source).tokens.dropLast, Word t.kind t.lexeme.toList :=
      fun t => word_of_mem_ofPieces
    obtain ⟨lexemes, hlexemes⟩ := exists_lexemes hwords
    rw [← hlexemes]
    exact readBack_lexemes lexemes

end TokenStream

end Lox
