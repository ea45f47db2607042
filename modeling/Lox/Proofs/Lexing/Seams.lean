/-
Where one source ends and another one begins.

If a source is followed by a newline and more text, its tokens and its faults stay what
they are, as long as no string is left open in it: nothing goes on past a newline that is
not inside of a string, neither a token nor a comment nor bad text.

* `Token.scan_followed` — what stands at the front is the same;
* `TokenStream.ofChars_newline` — the tokens and the faults of both parts, one after the
  other;
* `TokenStream.ofSource_newline` — the same for sources, whose lines count from one.
-/
import Mathlib
import Lox.Proofs.Lexing.Pieces
import Lox.Proofs.Reading.Recognition

namespace Lox

variable {source more : List Char} {p : Char → Bool}

theorem takeWhile_newline (h : p '\n' = false) (source more : List Char) :
    (source ++ '\n' :: more).takeWhile p = source.takeWhile p := by
  induction source with
  | nil => rw [List.nil_append, List.takeWhile_cons, h]; rfl
  | cons c source ih => rw [List.cons_append, List.takeWhile_cons, List.takeWhile_cons, ih]

theorem dropWhile_newline (h : p '\n' = false) (source more : List Char) :
    (source ++ '\n' :: more).dropWhile p = source.dropWhile p ++ '\n' :: more := by
  induction source with
  | nil => rw [List.nil_append, List.dropWhile_cons, h]; rfl
  | cons c source ih =>
    rw [List.cons_append, List.dropWhile_cons, List.dropWhile_cons, ih]
    split <;> rfl

/-- What ends inside of a text ends there whatever follows. -/
theorem takeWhile_append_of_exists (h : ∃ c ∈ source, p c = false) (more : List Char) :
    (source ++ more).takeWhile p = source.takeWhile p ∧
      (source ++ more).dropWhile p = source.dropWhile p ++ more := by
  induction source with
  | nil => simp at h
  | cons c source ih =>
    rw [List.cons_append, List.takeWhile_cons, List.takeWhile_cons, List.dropWhile_cons,
      List.dropWhile_cons]
    cases hc : p c with
    | false => exact ⟨rfl, rfl⟩
    | true =>
      obtain ⟨d, hd, hp⟩ := h
      have hmem : d ∈ source := by
        rcases List.mem_cons.mp hd with rfl | hd
        · rw [hc] at hp
          cases hp
        · exact hd
      obtain ⟨htake, hdrop⟩ := ih ⟨d, hmem, hp⟩
      exact ⟨by simp [htake], by simp [hdrop]⟩

/-- A text without a newline is in front of the source, or not at all. -/
theorem isPrefixOf_newline {text : List Char} (htext : '\n' ∉ text) (source more : List Char) :
    text.isPrefixOf (source ++ '\n' :: more) = text.isPrefixOf source := by
  rw [Bool.eq_iff_iff, List.isPrefixOf_iff_prefix, List.isPrefixOf_iff_prefix]
  refine ⟨fun h => ?_, fun h => h.trans (List.prefix_append _ _)⟩
  rcases List.prefix_or_prefix_of_prefix h (List.prefix_append source _) with h' | h'
  · exact h'
  · obtain ⟨others, rfl⟩ := h'
    rw [List.prefix_append_right_inj] at h
    cases others with
    | nil => exact ⟨[], by rw [List.append_nil, List.append_nil]⟩
    | cons c others =>
      obtain ⟨rfl, -⟩ := List.cons_prefix_cons.mp h
      exact absurd (List.mem_append_right source List.mem_cons_self) htext

namespace Token

/-- The same front with more text after it. -/
def followed {α : Type} (more : List Char) (front : Front α) : Front α :=
  { front with rest := front.rest ++ '\n' :: more }

/-- A recogniser finds the same when a newline and more text follow. -/
def Stops (recognize : List Char → Option (Front Kind)) (source : List Char) : Prop :=
  ∀ more, recognize (source ++ '\n' :: more) = (recognize source).map (followed more)

theorem newline_not_mem_text (s : Symbol) : '\n' ∉ s.text.toList := by
  cases s <;> decide

theorem recognizeSymbol_stops (s : Symbol) (source : List Char) :
    Stops (recognizeSymbol s) source := by
  intro more
  unfold recognizeSymbol
  rw [isPrefixOf_newline (newline_not_mem_text s)]
  split
  · rename_i h
    have hle := (List.isPrefixOf_iff_prefix.mp h).length_le
    rw [List.drop_append_of_le_length hle]
    rfl
  · rfl

theorem recognizeWord_stops (source : List Char) (hne : source ≠ []) :
    Stops recognizeWord source := by
  intro more
  cases source with
  | nil => exact absurd rfl hne
  | cons c source =>
    have hnewline : continuesName '\n' = false := by decide
    simp only [List.cons_append, recognizeWord, takeWhile_newline hnewline,
      dropWhile_newline hnewline]
    split <;> rfl

/-- Digits without a point after them. -/
theorem recognizeNumber_of_no_point (hwhole : source.takeWhile Decimal.isDigit ≠ [])
    (hpoint : ∀ others, source.dropWhile Decimal.isDigit ≠ '.' :: others) :
    recognizeNumber source = some ⟨.number (Decimal.read (source.takeWhile Decimal.isDigit) []),
      source.takeWhile Decimal.isDigit, source.dropWhile Decimal.isDigit⟩ := by
  simp only [recognizeNumber, if_neg hwhole]

theorem recognizeNumber_stops (source : List Char) : Stops recognizeNumber source := by
  intro more
  have hnewline : Decimal.isDigit '\n' = false := by decide
  have htake := takeWhile_newline hnewline source more
  have hdrop := dropWhile_newline hnewline source more
  by_cases hwhole : source.takeWhile Decimal.isDigit = []
  · simp only [recognizeNumber, htake, hwhole, if_true]
    rfl
  · by_cases hpoint : ∃ others, source.dropWhile Decimal.isDigit = '.' :: others
    · obtain ⟨others, hothers⟩ := hpoint
      simp only [recognizeNumber, htake, hdrop, if_neg hwhole, hothers, List.cons_append,
        takeWhile_newline hnewline, dropWhile_newline hnewline]
      split <;> rfl
    · have hnone : ∀ others, source.dropWhile Decimal.isDigit ≠ '.' :: others := fun others h =>
        hpoint ⟨others, h⟩
      have hnone' : ∀ others, (source ++ '\n' :: more).dropWhile Decimal.isDigit ≠
          '.' :: others := by
        intro others h
        rw [hdrop] at h
        cases hrest : source.dropWhile Decimal.isDigit with
        | nil =>
          rw [hrest, List.nil_append] at h
          exact absurd (List.head_eq_of_cons_eq h) (by decide)
        | cons c cs =>
          rw [hrest, List.cons_append] at h
          exact hnone cs (hrest.trans (by rw [List.head_eq_of_cons_eq h]))
      rw [recognizeNumber_of_no_point hwhole hnone,
        recognizeNumber_of_no_point (htake ▸ hwhole) hnone', htake, hdrop]
      rfl

theorem recognizeString_quote (source : List Char) :
    recognizeString ('"' :: source) =
      match source.dropWhile (· ≠ '"') with
      | [] => none
      | quote :: rest =>
        some ⟨.string (String.ofList (source.takeWhile (· ≠ '"'))),
          '"' :: source.takeWhile (· ≠ '"') ++ [quote], rest⟩ := rfl

theorem recognizeString_of_ne {c : Char} (h : c ≠ '"') (source : List Char) :
    recognizeString (c :: source) = none := by
  unfold recognizeString
  split
  · rename_i heq
    exact absurd (List.head_eq_of_cons_eq heq) h
  · rfl

/-- A string that is closed in the source ends there. -/
theorem recognizeString_stops (hne : source ≠ [])
    (h : ∀ rest, source = '"' :: rest → '"' ∈ rest) : Stops recognizeString source := by
  intro more
  cases source with
  | nil => exact absurd rfl hne
  | cons c source =>
    by_cases hc : c = '"'
    · subst hc
      have hclosed : ∃ c ∈ source, (decide (c ≠ '"')) = false := ⟨'"', h source rfl, by decide⟩
      obtain ⟨htake, hdrop⟩ := takeWhile_append_of_exists hclosed ('\n' :: more)
      rw [List.cons_append, recognizeString_quote, recognizeString_quote, htake, hdrop]
      cases hrest : source.dropWhile (· ≠ '"') with
      | nil =>
        obtain ⟨d, hd, hp⟩ := hclosed
        rw [List.dropWhile_eq_nil_iff] at hrest
        rw [hrest d hd] at hp
        cases hp
      | cons quote rest => rfl
    · rw [List.cons_append, recognizeString_of_ne hc, recognizeString_of_ne hc]
      rfl

/-- Nothing but a string starts with a quote. -/
theorem filterMap_recognizers_quote (hopen : '"' ∉ source) :
    recognizers.filterMap (· ('"' :: source)) = [] := by
  rw [List.filterMap_eq_nil_iff]
  intro recognize hmem
  simp only [recognizers, List.mem_append, List.mem_map, List.mem_cons, List.not_mem_nil,
    or_false] at hmem
  rcases hmem with ⟨s, -, rfl⟩ | rfl | rfl | rfl
  · unfold recognizeSymbol
    rw [if_neg]
    cases s <;> simp [Symbol.text]
  · rfl
  · rw [recognizeString_quote, List.dropWhile_eq_nil_iff.mpr]
    intro c hc
    rw [decide_eq_true_iff]
    rintro rfl
    exact hopen hc
  · rfl

theorem longest_followed {α : Type} (fronts : List (Front α)) :
    longest (fronts.map (followed more)) = (longest fronts).map (followed more) := by
  induction fronts with
  | nil => rfl
  | cons front fronts ih =>
    rw [List.map_cons, longest, ih, longest]
    cases longest fronts with
    | none => rfl
    | some other =>
      show some (if front.text.length < other.text.length then followed more other
        else followed more front) = some (followed more _)
      rw [apply_ite (followed more)]

/-- A quote that is not closed spoils the whole source. -/
theorem scan_open (hopen : '"' ∉ source) :
    scan ('"' :: source) = .bad ⟨.unterminatedString, '"' :: source, []⟩ := by
  unfold scan
  rw [filterMap_recognizers_quote hopen]
  rfl

/-- What was scanned, with more text after it. -/
def Scanned.followed (more : List Char) : Scanned → Scanned
  | .token front => .token (Token.followed more front)
  | .bad front => .bad (Token.followed more front)

/-- What stands at the front of a source is the same when a newline and more text follow,
unless it is a quote that is not closed. -/
theorem scan_followed (hne : source ≠ [])
    (hclosed : ∀ front, scan source = .bad front → front.value ≠ .unterminatedString)
    (more : List Char) : scan (source ++ '\n' :: more) = (scan source).followed more := by
  have hquote : ∀ rest, source = '"' :: rest → '"' ∈ rest := by
    rintro rest rfl
    by_contra hopen
    exact hclosed _ (scan_open hopen) rfl
  have hstops : ∀ recognize ∈ recognizers, Stops recognize source := by
    intro recognize hmem
    simp only [recognizers, List.mem_append, List.mem_map, List.mem_cons, List.not_mem_nil,
      or_false] at hmem
    rcases hmem with ⟨s, -, rfl⟩ | rfl | rfl | rfl
    · exact recognizeSymbol_stops s source
    · exact recognizeWord_stops source hne
    · exact recognizeString_stops hne hquote
    · exact recognizeNumber_stops source
  have hmap : recognizers.filterMap (· (source ++ '\n' :: more)) =
      (recognizers.filterMap (· source)).map (followed more) := by
    rw [List.map_filterMap]
    exact List.filterMap_congr fun recognize hmem => hstops recognize hmem more
  unfold scan at hclosed ⊢
  rw [hmap, longest_followed]
  cases hlongest : longest (recognizers.filterMap (· source)) with
  | some found => rfl
  | none =>
    -- no token is at the front, so it is its first character alone that is bad
    rw [hlongest] at hclosed
    obtain ⟨c, source, rfl⟩ := List.exists_cons_of_ne_nil hne
    by_cases hc : c = '"'
    · subst hc
      exact absurd rfl (hclosed _ rfl)
    · rw [List.cons_append]
      simp only [Option.map_none]
      rfl

end Token

/-! ### Pieces -/

namespace Piece

/-- The first piece is the same when a newline and more text follow, but for blanks and an
open quote. -/
theorem first_followed (hne : source ≠ []) (hblank : source.takeWhile isBlank = [])
    (hclosed : ∀ text, (first source).1 ≠ .bad .unterminatedString text) (more : List Char) :
    first (source ++ '\n' :: more) = ((first source).1, (first source).2 ++ '\n' :: more) := by
  have hblank' : (source ++ '\n' :: more).takeWhile isBlank = [] := by
    cases source with
    | nil => exact absurd rfl hne
    | cons c source =>
      rw [List.takeWhile_cons] at hblank
      rw [List.cons_append, List.takeWhile_cons]
      split at hblank
      · cases hblank
      · rename_i hc
        rw [if_neg hc]
  have hfront : ['/', '/'].isPrefixOf (source ++ '\n' :: more) = _ :=
    isPrefixOf_newline (by decide) source more
  unfold first at hclosed ⊢
  rw [if_neg (not_not_intro hblank')]
  rw [if_neg (not_not_intro hblank)] at hclosed ⊢
  rw [hfront]
  by_cases hcomment : ['/', '/'].isPrefixOf source = true
  · rw [if_pos hcomment, if_pos hcomment, takeWhile_newline (by decide),
      dropWhile_newline (by decide)]
  · rw [if_neg hcomment] at hclosed
    rw [if_neg hcomment, if_neg hcomment]
    have hscan : ∀ front, Token.scan source = .bad front → front.value ≠ .unterminatedString := by
      rintro ⟨value, text, rest⟩ hfront rfl
      rw [hfront] at hclosed
      exact hclosed text rfl
    rw [Token.scan_followed hne hscan more]
    cases Token.scan source <;> rfl

end Piece

/-! ### Tokens -/

namespace TokenStream

/-- The tokens of a text that starts on the given line. -/
def ofChars (line : Nat) (source : List Char) : TokenStream :=
  ofPieces line (Piece.ofSource source)

theorem ofChars_dropWhile (line : Nat) (source : List Char) :
    ofChars line source =
      ofChars (line + (source.takeWhile Piece.isBlank).count '\n')
        (source.dropWhile Piece.isBlank) := by
  by_cases hblank : source.takeWhile Piece.isBlank = []
  · have hsource := List.takeWhile_append_dropWhile (p := Piece.isBlank) (l := source)
    rw [hblank, List.nil_append] at hsource
    rw [hblank, hsource]
    rfl
  · have hne : source ≠ [] := by
      rintro rfl
      exact hblank rfl
    rw [ofChars, Piece.ofSource_of_ne_nil hne, Piece.first, if_pos hblank]
    rfl

/-- Blanks only move what follows. -/
theorem ofChars_blanks {blanks : List Char} (h : ∀ c ∈ blanks, Piece.isBlank c = true)
    (line : Nat) (source : List Char) :
    ofChars line (blanks ++ source) = ofChars (line + blanks.count '\n') source := by
  rw [ofChars_dropWhile, ofChars_dropWhile (line + blanks.count '\n'),
    List.takeWhile_append_of_pos h, List.dropWhile_append_of_pos h, List.count_append,
    Nat.add_assoc]

/-- The tokens and faults of a text, one piece earlier. -/
def before (line : Nat) (stream : TokenStream) : Piece → TokenStream
  | .blank _ | .comment _ => stream
  | .token kind text => { stream with tokens := ⟨kind, String.ofList text, line⟩ :: stream.tokens }
  | .bad error _ =>
    { stream with diagnostics := ⟨line, .line, error.message⟩ :: stream.diagnostics }

theorem ofPieces_cons (line : Nat) (piece : Piece) (pieces : List Piece) :
    ofPieces line (piece :: pieces) =
      before (line + piece.text.count '\n') (ofPieces (line + piece.text.count '\n') pieces)
        piece := by
  cases piece <;> rfl

theorem ofChars_of_ne_nil (line : Nat) (hne : source ≠ []) :
    ofChars line source =
      before (line + (Piece.first source).1.text.count '\n')
        (ofChars (line + (Piece.first source).1.text.count '\n') (Piece.first source).2)
        (Piece.first source).1 := by
  rw [ofChars, Piece.ofSource_of_ne_nil hne, ofPieces_cons]
  rfl

theorem ofChars_nil (line : Nat) : ofChars line [] = ⟨[⟨.endOfFile, "", line⟩], []⟩ := by
  rw [ofChars, Piece.ofSource_nil]
  rfl

/-- After the last piece there is a token for the end of the file. -/
theorem ofChars_tokens (line : Nat) (source : List Char) :
    (ofChars line source).tokens =
      (ofChars line source).tokens.dropLast ++ [⟨.endOfFile, "", line + source.count '\n'⟩] := by
  rw [ofChars, ofPieces_eq, (Piece.cut_ofSource source).flatMap_text, List.dropLast_concat]

theorem plain_ofChars (line : Nat) (source : List Char) :
    Grammar.Plain (ofChars line source).tokens.dropLast := by
  rintro token hmem hkind
  have hword := word_of_mem_ofPieces hmem
  rw [hkind] at hword
  cases hword

theorem tokensBeforeEnd_ofChars (line : Nat) (source : List Char) :
    tokensBeforeEnd (ofChars line source).tokens = (ofChars line source).tokens.dropLast := by
  conv_lhs => rw [ofChars_tokens]
  exact tokensBeforeEnd_append (plain_ofChars line source) (.inr ⟨_, _, rfl, rfl⟩)

/-- The tokens and the faults of the two streams, one after the other; the end of the file
is that of the second. -/
def Joins (whole first second : TokenStream) : Prop :=
  whole.tokens = first.tokens.dropLast ++ second.tokens ∧
    whole.diagnostics = first.diagnostics ++ second.diagnostics

/-- No string is left open. -/
def Closed (stream : TokenStream) : Prop :=
  ∀ d ∈ stream.diagnostics, d.message ≠ LexicalError.unterminatedString.message

/-- If no string is left open in the first text, its tokens and faults are followed by those
of the second, which starts on the next line. -/
theorem ofChars_newline (line : Nat) (more : List Char) (h : (ofChars line source).Closed) :
    Joins (ofChars line (source ++ '\n' :: more)) (ofChars line source)
      (ofChars (line + source.count '\n' + 1) more) := by
  induction source using Piece.ofSource.induct generalizing line with
  | case1 =>
    have hline : ofChars line (['\n'] ++ more) = ofChars (line + 1) more :=
      ofChars_blanks (List.forall_mem_singleton.mpr rfl) line more
    rw [List.nil_append, ← List.singleton_append, hline, ofChars_nil]
    exact ⟨rfl, rfl⟩
  | case2 source hne ih =>
    by_cases hblank : source.takeWhile Piece.isBlank = []
    · have hcount := congrArg (List.count '\n') (Piece.first_append source)
      rw [List.count_append] at hcount
      have hline := ofChars_of_ne_nil line hne
      have hclosed : ∀ text, (Piece.first source).1 ≠ .bad .unterminatedString text := by
        intro text heq
        rw [hline, heq] at h
        exact h _ List.mem_cons_self rfl
      have hfirst := Piece.first_followed hne hblank hclosed more
      have hline' := ofChars_of_ne_nil line (List.append_ne_nil_of_left_ne_nil hne ('\n' :: more))
      rw [hfirst] at hline'
      rw [hline] at h ⊢
      rw [hline', ← hcount, ← Nat.add_assoc]
      generalize (Piece.first source).1 = piece at *
      cases piece with
      | blank text => exact ih _ h
      | comment text => exact ih _ h
      | token kind text =>
        obtain ⟨htokens, hdiagnostics⟩ := ih _ h
        refine ⟨?_, hdiagnostics⟩
        have hne : ∀ line', (ofChars line' (Piece.first source).2).tokens ≠ [] := by
          intro line'
          rw [ofChars_tokens]
          exact List.append_ne_nil_of_right_ne_nil _ (List.cons_ne_nil _ _)
        simp only [before]
        rw [List.dropLast_cons_of_ne_nil (hne _), htokens, List.cons_append]
      | bad error text =>
        obtain ⟨htokens, hdiagnostics⟩ := ih _ fun d hd => h d (List.mem_cons_of_mem _ hd)
        exact ⟨htokens, congrArg (List.cons _) hdiagnostics⟩
    · -- blanks may go on after the newline, so they are no piece of the whole
      have hfirst : (Piece.first source).2 = source.dropWhile Piece.isBlank := by
        rw [Piece.first, if_pos hblank]
      have hblanks : ∀ c ∈ source.takeWhile Piece.isBlank, Piece.isBlank c = true := fun c hc =>
        List.mem_takeWhile_imp hc
      have hsource := List.takeWhile_append_dropWhile (p := Piece.isBlank) (l := source)
      have hcount := congrArg (List.count '\n') hsource
      rw [List.count_append] at hcount
      rw [ofChars_dropWhile] at h
      have hrest := ih (line + (source.takeWhile Piece.isBlank).count '\n') (hfirst ▸ h)
      rw [hfirst, Nat.add_assoc line, hcount, ← ofChars_dropWhile, ← ofChars_blanks hblanks,
        ← List.append_assoc, hsource] at hrest
      exact hrest

/-! ### Lines -/

/-- The stream with all its lines further down. -/
def down (k : Nat) (stream : TokenStream) : TokenStream where
  tokens := stream.tokens.map fun t => { t with line := t.line + k }
  diagnostics := stream.diagnostics.map fun d => { d with line := d.line + k }

theorem before_down (k line : Nat) (stream : TokenStream) (piece : Piece) :
    (before line stream piece).down k = before (line + k) (stream.down k) piece := by
  cases piece <;> rfl

/-- A text that starts further down has its tokens and faults further down. -/
theorem ofPieces_down (k : Nat) (pieces : List Piece) (line : Nat) :
    ofPieces (line + k) pieces = (ofPieces line pieces).down k := by
  induction pieces generalizing line with
  | nil => rfl
  | cons piece pieces ih =>
    rw [ofPieces_cons, ofPieces_cons, before_down, Nat.add_right_comm, ih]

/-- Two sources with a newline between them have the tokens of the first but for its end,
then those of the second, and the faults of the first, then those of the second.  The
lines of the second are moved down by the number of newlines above it.  Bad characters may
be in the first source, but no string may be left open in it. -/
theorem ofSource_newline (first second : String)
    (h : ∀ d ∈ (ofSource first).diagnostics,
      d.message ≠ LexicalError.unterminatedString.message) :
    let k := 1 + first.toList.count '\n'
    ∃ tokens, (ofSource first).tokens = tokens ++ [⟨.endOfFile, "", k⟩] ∧
      ofSource (first ++ "\n" ++ second) =
        { tokens := tokens ++ ((ofSource second).down k).tokens
          diagnostics := (ofSource first).diagnostics ++ ((ofSource second).down k).diagnostics } := by
  intro k
  refine ⟨(ofSource first).tokens.dropLast, ofChars_tokens 1 first.toList, ?_⟩
  have hlist : (first ++ "\n" ++ second).toList = first.toList ++ '\n' :: second.toList := by
    rw [String.toList_append, String.toList_append, List.append_assoc]
    rfl
  have hsecond : ofChars (1 + first.toList.count '\n' + 1) second.toList =
      (ofSource second).down k := by
    rw [Nat.add_comm _ 1]
    exact ofPieces_down k (Piece.ofSource second.toList) 1
  obtain ⟨htokens, hdiagnostics⟩ := ofChars_newline 1 second.toList h
  rw [← hlist, hsecond] at htokens hdiagnostics
  exact congrArg₂ TokenStream.mk htokens hdiagnostics

/-- A bad character and a comment at the end of the first source. -/
theorem ofSource_newline_comment :
    let first := "@\"a\nb\" // c"
    let second := "1 $"
    (∀ d ∈ (ofSource first).diagnostics,
        d.message ≠ LexicalError.unterminatedString.message) ∧
      ∃ tokens, (ofSource first).tokens = tokens ++ [⟨.endOfFile, "", 2⟩] ∧
        ofSource (first ++ "\n" ++ second) =
          { tokens := tokens ++ ((ofSource second).down 2).tokens
            diagnostics :=
              (ofSource first).diagnostics ++ ((ofSource second).down 2).diagnostics } := by
  intro first second
  have hfirst : (ofSource first).diagnostics = [⟨1, .line, "Unexpected character."⟩] := by cbv
  have hclosed : ∀ d ∈ (ofSource first).diagnostics,
      d.message ≠ LexicalError.unterminatedString.message := by
    rw [hfirst]
    decide
  have hk : 1 + first.toList.count '\n' = 2 := by decide +kernel
  have hjoined := ofSource_newline first second hclosed
  rw [hk] at hjoined
  exact ⟨hclosed, hjoined⟩

end TokenStream

end Lox
