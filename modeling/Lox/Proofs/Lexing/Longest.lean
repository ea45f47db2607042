/-
Which word is found at the front of a text does not depend on who looks first.

Many recognisers look at the front of a text side by side.  Two of them never take the
same number of characters, since both matches would be one text, and a text is a word of
one kind at most.  So there is never a draw, and the recognisers may be asked in any order.

* `Token.WordSort` — the sorts of words, one for each recogniser;
* `Token.recognizers_apart` — no two recognisers take the same number of characters;
* `Token.longest_perm` — of matches with different lengths the same one is the longest in
  any order;
* `Token.scan_cons` — what stands at the front of a text that is not empty: the longest
  word, or else bad text.
-/
import Mathlib.Data.List.Nodup
import Lox.Proofs.Lexing.Words

namespace Lox

namespace Token

variable {source : List Char} {front front' : Front Kind}

/-! ### What each recogniser finds -/

/-- The sorts of words.  Each has a recogniser, and so each symbol is one. -/
inductive WordSort
  | symbol (s : Symbol)
  | name
  | string
  | number
  deriving DecidableEq

/-- The sort of the words of this kind; there are none of the kind that ends a file. -/
def Kind.sort? : Kind → Option WordSort
  | .symbol s => some (.symbol s)
  | .keyword _ | .identifier => some .name
  | .string _ => some .string
  | .number _ => some .number
  | .endOfFile => none

namespace WordSort

/-- All sorts, in the order in which their recognisers are asked. -/
def all : List WordSort :=
  Symbol.all.map .symbol ++ [.name, .string, .number]

/-- The recogniser of the words of this sort. -/
def recognizer : WordSort → List Char → Option (Front Kind)
  | .symbol s => recognizeSymbol s
  | .name => recognizeWord
  | .string => recognizeString
  | .number => recognizeNumber

theorem recognizers_eq : recognizers = all.map recognizer := by
  rw [all, List.map_append, List.map_map]
  rfl

theorem recognizer_mem (sort : WordSort) : sort.recognizer ∈ recognizers := by
  rw [mem_recognizers]
  cases sort with
  | symbol s => exact .inl ⟨s, rfl⟩
  | name => exact .inr (.inl rfl)
  | string => exact .inr (.inr (.inl rfl))
  | number => exact .inr (.inr (.inr rfl))

theorem cuts_of_recognizer {sort : WordSort} (h : sort.recognizer source = some front) :
    Front.Cuts front source := by
  cases sort with
  | symbol s => exact cuts_of_recognizeSymbol h
  | name => exact cuts_of_recognizeWord h
  | string => exact cuts_of_recognizeString h
  | number => exact cuts_of_recognizeNumber h

end WordSort

theorem sort_of_recognizeSymbol {s : Symbol} (h : recognizeSymbol s source = some front) :
    front.value.sort? = some (.symbol s) := by
  unfold recognizeSymbol at h
  split at h
  · cases h
    rfl
  · cases h

theorem sort_of_recognizeWord (h : recognizeWord source = some front) :
    front.value.sort? = some .name := by
  unfold recognizeWord at h
  split at h
  · cases h
  · split at h
    · cases h
      simp only [kindOfWord]
      split <;> rfl
    · cases h

theorem sort_of_recognizeString (h : recognizeString source = some front) :
    front.value.sort? = some .string := by
  unfold recognizeString at h
  split at h
  · simp only at h
    split at h <;> cases h
    rfl
  · cases h

theorem sort_of_recognizeNumber (h : recognizeNumber source = some front) :
    front.value.sort? = some .number := by
  unfold recognizeNumber at h
  simp only at h
  split at h
  · cases h
  · split at h
    · split at h <;> cases h <;> rfl
    · cases h
      rfl

/-- A recogniser finds words of its own sort only. -/
theorem WordSort.sort_of_recognizer {sort : WordSort} (h : sort.recognizer source = some front) :
    front.value.sort? = some sort := by
  cases sort with
  | symbol s => exact sort_of_recognizeSymbol h
  | name => exact sort_of_recognizeWord h
  | string => exact sort_of_recognizeString h
  | number => exact sort_of_recognizeNumber h

/-! ### No draws -/

/-- The recognisers never take the same number of characters from one text. -/
def Apart (recognize recognize' : List Char → Option (Front Kind)) : Prop :=
  ∀ source front front', recognize source = some front → recognize' source = some front' →
    front.text.length ≠ front'.text.length

/-- Matches of one length are the same word, and so of one kind. -/
theorem value_eq_of_length_eq {sort sort' : WordSort} (h : sort.recognizer source = some front)
    (h' : sort'.recognizer source = some front')
    (hlength : front.text.length = front'.text.length) : front.value = front'.value := by
  have hfront : front.text <+: source := ⟨front.rest, (WordSort.cuts_of_recognizer h).2⟩
  have hfront' : front'.text <+: source := ⟨front'.rest, (WordSort.cuts_of_recognizer h').2⟩
  -- both stand at the front of the one source
  have htext : front.text = front'.text :=
    (List.prefix_of_prefix_length_le hfront hfront' (by omega)).eq_of_length hlength
  have hword' := word_of_recognizes sort'.recognizer_mem h'
  rw [← htext] at hword'
  exact (word_of_recognizes sort.recognizer_mem h).kind_eq hword'

/-- No two of the recognisers ever take the same number of characters. -/
theorem recognizers_apart : recognizers.Pairwise Apart := by
  have hnodup : WordSort.all.Nodup := by decide
  rw [WordSort.recognizers_eq, List.pairwise_map]
  refine hnodup.imp fun {sort sort'} hne source front front' h h' hlength => hne ?_
  -- in a draw one word would be of two sorts
  have hsort := WordSort.sort_of_recognizer h
  rw [value_eq_of_length_eq h h' hlength, WordSort.sort_of_recognizer h'] at hsort
  exact (Option.some.inj hsort).symm

/-- Matches of different lengths have one longest among them, in whatever order they are
given. -/
theorem longest_perm {α : Type} {fronts fronts' : List (Front α)} (hperm : fronts.Perm fronts')
    (hne : fronts.Pairwise fun front front' => front.text.length ≠ front'.text.length) :
    longest fronts = longest fronts' := by
  -- the two winners are in both lists, and each is as long as the other
  cases h : longest fronts with
  | none =>
    rw [longest_eq_none h] at hperm
    rw [← hperm.nil_eq]
    rfl
  | some front =>
    cases h' : longest fronts' with
    | none =>
      rw [longest_eq_none h'] at hperm
      rw [hperm.eq_nil] at h
      cases h
    | some front' =>
      have hmem := mem_of_longest h
      have hmem' := hperm.mem_iff.mpr (mem_of_longest h')
      have hle := length_le_longest h hmem'
      have hle' := length_le_longest h' (hperm.mem_iff.mp hmem)
      have hnodup : (fronts.map fun front => front.text.length).Nodup := List.pairwise_map.mpr hne
      rw [List.inj_on_of_nodup_map hnodup hmem hmem' (by omega)]

/-- At the front of a text that is not empty stands the longest word, if there is one at
all.  If not, an open quote spoils the whole text, and any other character only itself.
No two recognisers find matches of one length, so they may be asked in any order. -/
theorem scan_cons (c : Char) (cs : List Char) :
    let source := c :: cs
    ((∃ kind text, Word kind text ∧ text <+: source) →
        ∃ kind text rest, LongestWord kind text source ∧ text ++ rest = source ∧
          scan source = .token ⟨kind, text, rest⟩) ∧
      ((∀ kind text, Word kind text → ¬ text <+: source) →
        scan source = .bad (if c = '"' then ⟨.unterminatedString, source, []⟩
          else ⟨.unexpectedCharacter c, [c], cs⟩)) ∧
      recognizers.Pairwise Apart ∧
      ∀ others : List (List Char → Option (Front Kind)), others.Perm recognizers →
        longest (others.filterMap (· source)) = longest (recognizers.filterMap (· source)) := by
  intro source
  have hne : source ≠ [] := List.cons_ne_nil c cs
  refine ⟨?_, fun hnone => ?_, recognizers_apart, fun others hperm => ?_⟩
  · rintro ⟨kind, text, hword, hfront⟩
    cases hscan : scan source with
    | token front =>
      obtain ⟨hlongest, happend⟩ := (scan_eq_token_iff hne).mp hscan
      exact ⟨front.value, front.text, front.rest, hlongest, happend, rfl⟩
    | bad error => exact absurd hfront (not_word_of_bad hscan hword)
  · have hlongest : longest (recognizers.filterMap (· source)) = none := by
      cases h : longest (recognizers.filterMap (· source)) with
      | none => rfl
      | some front =>
        have hword := longestWord_of_longest h
        exact absurd hword.front (hnone _ _ hword.word)
    unfold scan
    rw [hlongest]
    by_cases hquote : c = '"'
    · subst hquote
      rfl
    · simp only [source, hquote, if_false]
  · refine (longest_perm (hperm.symm.filterMap _) ?_).symm
    refine List.pairwise_filterMap.mpr (recognizers_apart.imp fun hapart front h front' h' => ?_)
    exact hapart source front front' h h'

/-- A point that no digit follows is left over, and nothing is left of a text with a quote that
is not closed. -/
theorem scan_cons_rest :
    (∃ kind text, Word kind text ∧ text <+: ['1', '.']) ∧
      (∃ kind text rest, LongestWord kind text ['1', '.'] ∧ text ++ rest = ['1', '.'] ∧
        scan ['1', '.'] = .token ⟨kind, text, rest⟩) ∧
      (∀ kind text, Word kind text → ¬ text <+: ['"', 'a']) ∧
      scan ['"', 'a'] = .bad ⟨.unterminatedString, ['"', 'a'], []⟩ := by
  have hword : ∃ kind text, Word kind text ∧ text <+: ['1', '.'] :=
    ⟨_, ['1'], .integer ⟨List.cons_ne_nil _ _, List.forall_mem_singleton.mpr rfl⟩, ⟨['.'], rfl⟩⟩
  have hnone : ∀ kind text, Word kind text → ¬ text <+: ['"', 'a'] := by
    intro kind text h hfront
    obtain ⟨c, cs, rfl, hstarts⟩ := h.startsWith
    obtain ⟨rfl, hrest⟩ := List.cons_prefix_cons.mp hfront
    have hfirst : startsName '"' = false ∧ Decimal.isDigit '"' = false := by decide
    cases kind with
    | string s =>
      -- the closing quote would be among the characters behind the first one
      have hquote : '"' ∈ cs := by
        rw [List.cons.inj h.text_string |>.2]
        exact List.mem_append_right _ List.mem_cons_self
      exact absurd (hrest.subset hquote) (by decide)
    | symbol s => exact hstarts.2.2 rfl
    | keyword k => exact absurd hstarts (ne_true_of_eq_false hfirst.1)
    | identifier => exact absurd hstarts (ne_true_of_eq_false hfirst.1)
    | number x => exact absurd hstarts (ne_true_of_eq_false hfirst.2)
    | endOfFile => exact hstarts
  exact ⟨hword, (scan_cons '1' ['.']).1 hword, hnone, (scan_cons '"' ['a']).2.1 hnone⟩

end Token

end Lox
