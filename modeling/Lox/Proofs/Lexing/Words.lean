/-
The words of the language, and the longest one at the front of a text.

`Token.Word` is the lexical grammar: it says which texts are words, and of which kind,
without saying how they are found.  `Token.scan` runs many recognisers side by side; the
match that it keeps is the longest word at the front of the text.

* `Token.Word.kind_eq` — a text is a word of one kind at most;
* `Token.scan_eq_token_iff` — a token is found if and only if it is the longest word;
* `Token.bad_of_scan` — bad text is an open quote with all that follows, or a character
  that starts no word.
-/
import Mathlib.Data.List.Basic
import Mathlib.Data.List.TakeWhile
import Lox.Token.Scan

namespace Lox

theorem Symbol.eq_of_text {s s' : Symbol} (h : s.text = s'.text) : s = s' := by
  have hall : ∀ s ∈ Symbol.all, ∀ s' ∈ Symbol.all, s.text = s'.text → s = s' := by decide
  exact hall s s.mem_all s' s'.mem_all h

theorem Keyword.eq_of_text {k k' : Keyword} (h : k.text = k'.text) : k = k' := by
  have hall : ∀ k ∈ Keyword.all, ∀ k' ∈ Keyword.all, k.text = k'.text → k = k' := by decide
  exact hall k k.mem_all k' k'.mem_all h

theorem Keyword.text_of_ofText? {text : String} {k : Keyword} (h : ofText? text = some k) :
    k.text = text := by
  simpa using List.find?_some h

namespace Token

/-- A text of digits only, with one at least. -/
structure Digits (text : List Char) : Prop where
  ne_nil : text ≠ []
  isDigit : ∀ c ∈ text, Decimal.isDigit c = true

/-- The lexical grammar: the texts that are words, and the kinds that they have. -/
inductive Word : Kind → List Char → Prop
  | symbol (s : Symbol) : Word (.symbol s) s.text.toList
  | keyword (k : Keyword) : Word (.keyword k) k.text.toList
  | identifier {c : Char} {cs : List Char} (first : startsName c = true)
    (others : ∀ d ∈ cs, continuesName d = true) (free : ∀ k : Keyword, k.text.toList ≠ c :: cs) :
    Word .identifier (c :: cs)
  | string {inner : List Char} (closed : '"' ∉ inner) :
    Word (.string (String.ofList inner)) ('"' :: inner ++ ['"'])
  | integer {whole : List Char} (digits : Digits whole) :
    Word (.number (Decimal.read whole [])) whole
  | decimal {whole fraction : List Char} (digits : Digits whole) (places : Digits fraction) :
    Word (.number (Decimal.read whole fraction)) (whole ++ '.' :: fraction)

variable {kind kind' : Kind} {text text' source : List Char} {c : Char} {cs : List Char}

/-! ### Names and keywords -/

/-- A keyword is spelled like a name. -/
theorem keyword_isName (k : Keyword) :
    ∃ c cs, k.text.toList = c :: cs ∧ startsName c = true ∧ ∀ d ∈ cs, continuesName d = true := by
  cases k <;> exact ⟨_, _, rfl, by decide, List.all_eq_true.mp (by decide)⟩

/-- A text that is spelled like a name is a keyword or an identifier. -/
theorem word_name (first : startsName c = true) (others : ∀ d ∈ cs, continuesName d = true) :
    Word (kindOfWord (String.ofList (c :: cs))) (c :: cs) := by
  unfold kindOfWord
  cases hk : Keyword.ofText? (String.ofList (c :: cs)) with
  | some k =>
    have htext : k.text.toList = c :: cs := by
      rw [Keyword.text_of_ofText? hk, String.toList_ofList]
    exact htext ▸ Word.keyword k
  | none =>
    refine .identifier first others fun k htext => ?_
    have hnone := List.find?_eq_none.mp hk k k.mem_all
    rw [← htext, String.ofList_toList] at hnone
    simp at hnone

/-! ### The first character of a word -/

/-- Can a word of this kind start with the character? -/
def Kind.startsWith (c : Char) : Kind → Prop
  | .symbol _ => startsName c = false ∧ Decimal.isDigit c = false ∧ c ≠ '"'
  | .keyword _ | .identifier => startsName c = true
  | .string _ => c = '"'
  | .number _ => Decimal.isDigit c = true
  | .endOfFile => False

theorem not_isDigit_of_startsName (h : startsName c = true) : Decimal.isDigit c = false := by
  simp only [startsName, Decimal.isDigit, Bool.or_eq_true, Bool.and_eq_true, decide_eq_true_eq,
    Bool.and_eq_false_imp, decide_eq_false_iff_not] at *
  rcases h with (⟨h, -⟩ | ⟨h, -⟩) | rfl
  · exact fun _ h' => absurd (Char.le_trans h h') (by decide)
  · exact fun _ h' => absurd (Char.le_trans h h') (by decide)
  · decide

theorem symbol_starts (s : Symbol) :
    ∃ c cs, s.text.toList = c :: cs ∧
      startsName c = false ∧ Decimal.isDigit c = false ∧ c ≠ '"' := by
  cases s <;> exact ⟨_, _, rfl, by decide, by decide, by decide⟩

/-- A word is not empty, and its first character tells its kind apart from most others. -/
theorem Word.startsWith (h : Word kind text) : ∃ c cs, text = c :: cs ∧ kind.startsWith c := by
  cases h with
  | symbol s =>
    obtain ⟨c, cs, htext, hstarts⟩ := symbol_starts s
    exact ⟨c, cs, htext, hstarts⟩
  | keyword k =>
    obtain ⟨c, cs, htext, hfirst, -⟩ := keyword_isName k
    exact ⟨c, cs, htext, hfirst⟩
  | identifier first others free => exact ⟨_, _, rfl, first⟩
  | string closed => exact ⟨_, _, rfl, rfl⟩
  | integer digits =>
    obtain ⟨c, cs, rfl⟩ := List.exists_cons_of_ne_nil digits.ne_nil
    exact ⟨c, cs, rfl, digits.isDigit c List.mem_cons_self⟩
  | @decimal whole fraction digits places =>
    obtain ⟨c, cs, rfl⟩ := List.exists_cons_of_ne_nil digits.ne_nil
    exact ⟨c, cs ++ '.' :: fraction, rfl, digits.isDigit c List.mem_cons_self⟩

/-! ### Kinds -/

/-- Two kinds that words with the same first character can have are much the same. -/
theorem Kind.startsWith_cases (h : kind.startsWith c) (h' : kind'.startsWith c) :
    (∃ s s', kind = .symbol s ∧ kind' = .symbol s') ∨
      ((kind = .identifier ∨ ∃ k, kind = .keyword k) ∧
        (kind' = .identifier ∨ ∃ k, kind' = .keyword k)) ∨
      (∃ s s', kind = .string s ∧ kind' = .string s') ∨
      ∃ x x', kind = .number x ∧ kind' = .number x' := by
  have hquote : startsName '"' = false ∧ Decimal.isDigit '"' = false := by decide
  have hname := @not_isDigit_of_startsName c
  cases kind <;> cases kind' <;> simp_all [Kind.startsWith]

/-- Digits before a point are all the digits there are at the front. -/
theorem Digits.takeWhile_append {whole : List Char} (h : Digits whole) (c : Char)
    (hc : Decimal.isDigit c = false) (more : List Char) :
    (whole ++ c :: more).takeWhile Decimal.isDigit = whole ∧
      (whole ++ c :: more).dropWhile Decimal.isDigit = c :: more := by
  rw [List.takeWhile_append_of_pos h.isDigit, List.dropWhile_append_of_pos h.isDigit]
  simp [hc]

theorem Word.text_symbol {s : Symbol} (h : Word (.symbol s) text) : text = s.text.toList := by
  cases h
  rfl

theorem Word.text_keyword {k : Keyword} (h : Word (.keyword k) text) : text = k.text.toList := by
  cases h
  rfl

theorem Word.ne_keyword (h : Word .identifier text) (k : Keyword) : k.text.toList ≠ text := by
  cases h with
  | identifier first others free => exact free k

theorem Word.text_string {s : String} (h : Word (.string s) text) :
    text = '"' :: s.toList ++ ['"'] := by
  cases h
  rw [String.toList_ofList]

theorem Word.value_number {x : Float} (h : Word (.number x) text) :
    x = Decimal.read (text.takeWhile Decimal.isDigit)
      ((text.dropWhile Decimal.isDigit).drop 1) := by
  cases h with
  | integer digits =>
    rw [List.takeWhile_eq_self_iff.mpr digits.isDigit, List.dropWhile_eq_nil_iff.mpr digits.isDigit]
    rfl
  | decimal digits places =>
    obtain ⟨htake, hdrop⟩ := digits.takeWhile_append '.' (by decide) _
    rw [htake, hdrop]
    rfl

/-- A text is a word of one kind at most. -/
theorem Word.kind_eq (h : Word kind text) (h' : Word kind' text) : kind = kind' := by
  obtain ⟨c, cs, htext, hstarts⟩ := h.startsWith
  obtain ⟨c', cs', htext', hstarts'⟩ := h'.startsWith
  obtain rfl : c = c' := List.head_eq_of_cons_eq (htext.symm.trans htext')
  -- within one sort of kinds the text has all there is to a kind
  rcases Kind.startsWith_cases hstarts hstarts' with
    ⟨s, s', rfl, rfl⟩ | ⟨hname, hname'⟩ | ⟨s, s', rfl, rfl⟩ | ⟨x, x', rfl, rfl⟩
  · have hsame := h.text_symbol.symm.trans h'.text_symbol
    rw [Symbol.eq_of_text (String.toList_inj.mp hsame)]
  · -- an identifier is no keyword, and keywords differ in their texts
    rcases hname with rfl | ⟨k, rfl⟩ <;> rcases hname' with rfl | ⟨k', rfl⟩
    · rfl
    · exact absurd h'.text_keyword.symm (h.ne_keyword k')
    · exact absurd h.text_keyword.symm (h'.ne_keyword k)
    · have hsame := h.text_keyword.symm.trans h'.text_keyword
      rw [Keyword.eq_of_text (String.toList_inj.mp hsame)]
  · have hsame := h.text_string.symm.trans h'.text_string
    rw [List.cons_append, List.cons_append, List.cons_inj_right,
      List.append_cancel_right_eq] at hsame
    rw [String.toList_inj.mp hsame]
  · rw [h.value_number, h'.value_number]

/-! ### Recognisers -/

theorem mem_recognizers {recognize : List Char → Option (Front Kind)} :
    recognize ∈ recognizers ↔ (∃ s, recognize = recognizeSymbol s) ∨ recognize = recognizeWord ∨
      recognize = recognizeString ∨ recognize = recognizeNumber := by
  simp only [recognizers, List.mem_append, List.mem_map, List.mem_cons, List.not_mem_nil, or_false]
  constructor
  · rintro (⟨s, -, rfl⟩ | h)
    · exact .inl ⟨s, rfl⟩
    · exact .inr h
  · rintro (⟨s, rfl⟩ | h)
    · exact .inl ⟨s, s.mem_all, rfl⟩
    · exact .inr h

variable {front : Front Kind}

theorem word_of_recognizeSymbol {s : Symbol} (h : recognizeSymbol s source = some front) :
    Word front.value front.text := by
  unfold recognizeSymbol at h
  split at h
  · cases h
    exact .symbol s
  · cases h

theorem word_of_recognizeWord (h : recognizeWord source = some front) :
    Word front.value front.text := by
  unfold recognizeWord at h
  split at h
  · cases h
  · split at h
    · rename_i hfirst
      cases h
      exact word_name hfirst fun d hd => List.mem_takeWhile_imp hd
    · cases h

theorem word_of_recognizeString (h : recognizeString source = some front) :
    Word front.value front.text := by
  unfold recognizeString at h
  split at h
  · rename_i source
    simp only at h
    split at h
    · cases h
    · rename_i quote rest hrest
      cases h
      -- what stops the scan of the inner text is a quote
      have hquote : quote = '"' := by
        have hstop := List.head?_dropWhile_not (fun c => decide (c ≠ '"')) source
        rw [hrest] at hstop
        simpa using hstop
      subst hquote
      refine .string fun hmem => ?_
      have hne := List.mem_takeWhile_imp hmem
      simp at hne
  · cases h

theorem digits_takeWhile (h : source.takeWhile Decimal.isDigit ≠ []) :
    Digits (source.takeWhile Decimal.isDigit) :=
  ⟨h, fun _ hc => List.mem_takeWhile_imp hc⟩

theorem word_of_recognizeNumber (h : recognizeNumber source = some front) :
    Word front.value front.text := by
  unfold recognizeNumber at h
  simp only at h
  split at h
  · cases h
  · rename_i hwhole
    split at h
    · split at h
      · cases h
        exact .integer (digits_takeWhile hwhole)
      · rename_i hfraction
        cases h
        exact .decimal (digits_takeWhile hwhole) (digits_takeWhile hfraction)
    · cases h
      exact .integer (digits_takeWhile hwhole)

/-- What a recogniser finds is a word. -/
theorem word_of_recognizes {recognize : List Char → Option (Front Kind)}
    (hmem : recognize ∈ recognizers) (h : recognize source = some front) :
    Word front.value front.text := by
  rcases mem_recognizers.mp hmem with ⟨s, rfl⟩ | rfl | rfl | rfl
  · exact word_of_recognizeSymbol h
  · exact word_of_recognizeWord h
  · exact word_of_recognizeString h
  · exact word_of_recognizeNumber h

/-- The recogniser finds a text at the front that is at least as long as this one. -/
def Reaches (recognize : List Char → Option (Front Kind)) (source text : List Char) : Prop :=
  ∃ front, recognize source = some front ∧ text.length ≤ front.text.length

theorem recognizeSymbol_reaches (s : Symbol) (h : s.text.toList <+: source) :
    Reaches (recognizeSymbol s) source s.text.toList := by
  unfold Reaches recognizeSymbol
  rw [if_pos (List.isPrefixOf_iff_prefix.mpr h)]
  exact ⟨_, rfl, Nat.le_refl _⟩

theorem recognizeWord_reaches (first : startsName c = true)
    (others : ∀ d ∈ cs, continuesName d = true) (h : c :: cs <+: source) :
    Reaches recognizeWord source (c :: cs) := by
  obtain ⟨rest, rfl⟩ := h
  unfold Reaches recognizeWord
  rw [List.cons_append]
  dsimp only
  rw [if_pos first, List.takeWhile_append_of_pos others]
  exact ⟨_, rfl, by simp⟩

theorem recognizeString_reaches {inner : List Char} (closed : '"' ∉ inner)
    (h : '"' :: inner ++ ['"'] <+: source) :
    Reaches recognizeString source ('"' :: inner ++ ['"']) := by
  obtain ⟨rest, rfl⟩ := h
  have hinner : ∀ c ∈ inner, decide (c ≠ '"') = true := by
    intro c hc
    simp only [ne_eq, decide_eq_true_eq]
    rintro rfl
    exact closed hc
  unfold Reaches recognizeString
  simp only [List.cons_append, List.append_assoc, List.nil_append]
  rw [List.takeWhile_append_of_pos hinner, List.dropWhile_append_of_pos hinner]
  exact ⟨_, rfl, by simp⟩

theorem recognizeNumber_reaches_whole {whole : List Char} (digits : Digits whole)
    (h : whole <+: source) : Reaches recognizeNumber source whole := by
  obtain ⟨rest, rfl⟩ := h
  have htake : (whole ++ rest).takeWhile Decimal.isDigit =
      whole ++ rest.takeWhile Decimal.isDigit := List.takeWhile_append_of_pos digits.isDigit
  have hne : (whole ++ rest).takeWhile Decimal.isDigit ≠ [] := by
    rw [htake]
    simp [digits.ne_nil]
  have hle : whole.length ≤ ((whole ++ rest).takeWhile Decimal.isDigit).length := by
    rw [htake]
    simp
  unfold Reaches recognizeNumber
  simp only [if_neg hne]
  -- a point and more digits only make what is found longer
  split
  · split
    · exact ⟨_, rfl, hle⟩
    · exact ⟨_, rfl, by simp only [List.length_append]; omega⟩
  · exact ⟨_, rfl, hle⟩

theorem recognizeNumber_reaches_fraction {whole fraction : List Char} (digits : Digits whole)
    (places : Digits fraction) (h : whole ++ '.' :: fraction <+: source) :
    Reaches recognizeNumber source (whole ++ '.' :: fraction) := by
  obtain ⟨rest, rfl⟩ := h
  obtain ⟨htake, hdrop⟩ := digits.takeWhile_append '.' (by decide) (fraction ++ rest)
  have hplaces : (fraction ++ rest).takeWhile Decimal.isDigit =
      fraction ++ rest.takeWhile Decimal.isDigit := List.takeWhile_append_of_pos places.isDigit
  have hne : fraction ++ rest.takeWhile Decimal.isDigit ≠ [] := by
    simp [places.ne_nil]
  unfold Reaches recognizeNumber
  simp only [List.append_assoc, List.cons_append, htake, hdrop, if_neg digits.ne_nil, hplaces,
    if_neg hne]
  exact ⟨_, rfl, by simp⟩

/-- A word at the front of a text is found, if not a longer one. -/
theorem recognizes_of_word (h : Word kind text) (hfront : text <+: source) :
    ∃ recognize ∈ recognizers, Reaches recognize source text := by
  cases h with
  | symbol s => exact ⟨_, mem_recognizers.mpr (.inl ⟨s, rfl⟩), recognizeSymbol_reaches s hfront⟩
  | keyword k =>
    obtain ⟨c, cs, htext, hfirst, hothers⟩ := keyword_isName k
    rw [htext] at hfront ⊢
    exact ⟨_, mem_recognizers.mpr (.inr (.inl rfl)), recognizeWord_reaches hfirst hothers hfront⟩
  | identifier first others free =>
    exact ⟨_, mem_recognizers.mpr (.inr (.inl rfl)), recognizeWord_reaches first others hfront⟩
  | string closed =>
    exact ⟨_, mem_recognizers.mpr (.inr (.inr (.inl rfl))), recognizeString_reaches closed hfront⟩
  | integer digits =>
    exact ⟨_, mem_recognizers.mpr (.inr (.inr (.inr rfl))),
      recognizeNumber_reaches_whole digits hfront⟩
  | decimal digits places =>
    exact ⟨_, mem_recognizers.mpr (.inr (.inr (.inr rfl))),
      recognizeNumber_reaches_fraction digits places hfront⟩

/-! ### The longest match -/

theorem longest_eq_none {α : Type} {fronts : List (Front α)} (h : longest fronts = none) :
    fronts = [] := by
  cases fronts with
  | nil => rfl
  | cons first fronts =>
    simp only [longest] at h
    split at h <;> cases h

theorem length_le_longest {α : Type} {fronts : List (Front α)} {found other : Front α}
    (h : longest fronts = some found) (hmem : other ∈ fronts) :
    other.text.length ≤ found.text.length := by
  induction fronts generalizing found with
  | nil => cases hmem
  | cons first fronts ih =>
    simp only [longest] at h
    split at h
    · rename_i hnone
      rw [longest_eq_none hnone, List.mem_singleton] at hmem
      cases h
      rw [hmem]
    · rename_i best hbest
      simp only [Option.some.injEq] at h
      have hle : other ∈ fronts → other.text.length ≤ best.text.length := ih hbest
      split at h <;> cases h <;> rcases List.mem_cons.mp hmem with rfl | hmem
      · omega
      · exact hle hmem
      · exact Nat.le_refl _
      · exact Nat.le_trans (hle hmem) (by omega)

/-- The text is a word of this kind at the front of the source, and there is none that is
longer. -/
structure LongestWord (kind : Kind) (text source : List Char) : Prop where
  word : Word kind text
  front : text <+: source
  longest : ∀ kind' text', Word kind' text' → text' <+: source → text'.length ≤ text.length

/-- There is only one longest word. -/
theorem LongestWord.unique (h : LongestWord kind text source)
    (h' : LongestWord kind' text' source) : kind = kind' ∧ text = text' := by
  have hle := h'.longest kind text h.word h.front
  have hle' := h.longest kind' text' h'.word h'.front
  have htext : text = text' :=
    (List.prefix_of_prefix_length_le h.front h'.front hle).eq_of_length (by omega)
  subst htext
  exact ⟨h.word.kind_eq h'.word, rfl⟩

/-- What the recognisers find at the front of a source, if they find anything. -/
theorem longestWord_of_longest (h : longest (recognizers.filterMap (· source)) = some front) :
    LongestWord front.value front.text source := by
  obtain ⟨recognize, hmem, hfound⟩ := List.mem_filterMap.mp (mem_of_longest h)
  refine ⟨word_of_recognizes hmem hfound, ⟨front.rest, (cuts_of_recognizers h).2⟩, ?_⟩
  intro kind text hword hfront
  obtain ⟨recognize, hmem, other, hother, hle⟩ := recognizes_of_word hword hfront
  have hfound : other ∈ recognizers.filterMap (· source) :=
    List.mem_filterMap.mpr ⟨recognize, hmem, hother⟩
  exact Nat.le_trans hle (length_le_longest h hfound)

/-- They find something where there is a word. -/
theorem not_word_of_longest (h : longest (recognizers.filterMap (· source)) = none)
    (hword : Word kind text) : ¬ text <+: source := by
  intro hfront
  obtain ⟨recognize, hmem, other, hother, -⟩ := recognizes_of_word hword hfront
  have hfound : other ∈ recognizers.filterMap (· source) :=
    List.mem_filterMap.mpr ⟨recognize, hmem, hother⟩
  rw [longest_eq_none h] at hfound
  cases hfound

/-- A token is found at the front of a source if and only if it is the longest word. -/
theorem scan_eq_token_iff (hne : source ≠ []) :
    scan source = .token front ↔
      LongestWord front.value front.text source ∧ front.text ++ front.rest = source := by
  constructor
  · intro h
    unfold scan at h
    split at h
    · rename_i found hfound
      cases h
      exact ⟨longestWord_of_longest hfound, (cuts_of_recognizers hfound).2⟩
    · split at h
      · exact absurd rfl hne
      · cases h
      · cases h
  · rintro ⟨hword, happend⟩
    cases hlongest : longest (recognizers.filterMap (· source)) with
    | none => exact absurd hword.front (not_word_of_longest hlongest hword.word)
    | some found =>
      obtain ⟨hkind, htext⟩ := hword.unique (longestWord_of_longest hlongest)
      have hrest : front.rest = found.rest := by
        have hfound := (cuts_of_recognizers hlongest).2
        rw [← happend, ← htext] at hfound
        exact (List.append_cancel_left hfound).symm
      unfold scan
      rw [hlongest]
      obtain ⟨value, text, rest⟩ := front
      obtain ⟨value', text', rest'⟩ := found
      cases hkind
      cases htext
      cases hrest
      rfl

/-! ### Bad text -/

/-- Where characters are bad, no word is at the front of the source. -/
theorem not_word_of_bad {error : Front LexicalError} (h : scan source = .bad error)
    (hword : Word kind text) : ¬ text <+: source := by
  unfold scan at h
  split at h
  · cases h
  · rename_i hnone
    exact not_word_of_longest hnone hword

/-- A symbol of two characters starts with one that is a symbol by itself. -/
theorem symbol_of_first {s : Symbol} (h : s.text.toList = c :: cs) :
    ∃ s' : Symbol, s'.text.toList = [c] := by
  have hall : ∀ s ∈ Symbol.all, ∃ s' ∈ Symbol.all, s'.text.toList = s.text.toList.take 1 := by
    decide
  obtain ⟨s', -, hs'⟩ := hall s s.mem_all
  exact ⟨s', by rw [hs', h]; rfl⟩

/-- But for a quote, the first character of a word is a word by itself. -/
theorem Word.first (h : Word kind (c :: cs)) (hc : c ≠ '"') : ∃ kind', Word kind' [c] := by
  obtain ⟨d, ds, htext, hstarts⟩ := h.startsWith
  obtain rfl : c = d := List.head_eq_of_cons_eq htext
  cases kind with
  | symbol s =>
    obtain ⟨s', hs'⟩ := symbol_of_first h.text_symbol.symm
    exact ⟨_, hs' ▸ Word.symbol s'⟩
  | keyword k => exact ⟨_, word_name hstarts (List.forall_mem_nil _)⟩
  | identifier => exact ⟨_, word_name hstarts (List.forall_mem_nil _)⟩
  | string s => exact absurd hstarts hc
  -- the first digit need not have the value of the whole number
  | number x => exact ⟨_, .integer ⟨List.cons_ne_nil _ _, List.forall_mem_singleton.mpr hstarts⟩⟩
  | endOfFile => exact hstarts.elim

/-- Bad text is an open quote with all that follows, or one character that starts no
word. -/
theorem bad_of_scan {error : Front LexicalError} (h : scan source = .bad error) :
    (∃ body, '"' ∉ body ∧ error = ⟨.unterminatedString, '"' :: body, []⟩) ∨
      ∃ c rest, error = ⟨.unexpectedCharacter c, [c], rest⟩ ∧
        ∀ kind text, Word kind text → text.head? ≠ some c := by
  have hnone : ∀ kind text, Word kind text → ¬ text <+: source := fun _ _ => not_word_of_bad h
  unfold scan at h
  split at h
  · cases h
  · split at h
    · cases h
    · rename_i body _
      cases h
      refine .inl ⟨body, fun hmem => ?_, rfl⟩
      -- up to the next quote it would be a string
      obtain ⟨inner, more, rfl, hclosed⟩ := List.eq_append_cons_of_mem hmem
      exact hnone _ _ (.string hclosed) ⟨more, by simp⟩
    · rename_i c rest hquote _
      cases h
      refine .inr ⟨c, rest, rfl, fun kind text hword hhead => ?_⟩
      obtain ⟨cs, rfl⟩ : ∃ cs, text = c :: cs := List.head?_eq_some_iff.mp hhead
      obtain ⟨kind', hfirst⟩ := hword.first hquote
      exact hnone _ _ hfirst ⟨rest, rfl⟩

end Token

end Lox
