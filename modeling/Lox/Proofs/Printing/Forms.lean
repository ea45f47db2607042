/-
Printed forms: words, quoted texts and parenthesised lists.

Where a word is printed, a space, a parenthesis or the end of a line follows, and no word
has one of these in it; between quotes there is no other quote.  So no form can be printed
like the beginning of another one.

* `Form`, `Form.chars` — a form and the characters that it is printed with;
* `Form.Plain` — its words are words and its texts have no quotes;
* `Form.chars_inj` — plain forms that are printed alike are the same.
-/
import Mathlib.Data.List.TakeWhile
import Lox.Syntax

namespace Lox

/-- What a printed tree looks like.  The signature of a function is its name with its
parameters in parentheses right behind it. -/
inductive Form where
  | word (text : String)
  | quoted (text : String)
  | signature (name : String) (params : List String)
  | node (head : String) (items : List Form)

/-- Words, each after a space. -/
def spacedEach (words : List String) : List Char :=
  words.flatMap fun word => ' ' :: word.toList

/-- Words with spaces between them. -/
def spaced : List String → List Char
  | [] => []
  | word :: words => word.toList ++ spacedEach words

mutual

/-- The characters of a form. -/
def Form.chars : Form → List Char
  | .word text => text.toList
  | .quoted text => '"' :: (text.toList ++ ['"'])
  | .signature name params => name.toList ++ '(' :: (spaced params ++ [')'])
  | .node head items => '(' :: (head.toList ++ Form.charsEach items ++ [')'])

/-- The characters of several forms, each after a space. -/
def Form.charsEach : List Form → List Char
  | [] => []
  | form :: forms => ' ' :: (form.chars ++ Form.charsEach forms)

end

/-- Does the character end a word? -/
def Form.delimits (c : Char) : Bool :=
  c ∈ [' ', '(', ')', '"', '\n']

theorem Form.delimits_cases {c : Char} (h : delimits c = true) :
    c = ' ' ∨ c = '(' ∨ c = ')' ∨ c = '"' ∨ c = '\n' := by
  simpa [delimits] using h

/-- The text is printed as one word. -/
structure Form.IsWord (text : String) : Prop where
  ne_nil : text.toList ≠ []
  plain : ∀ c ∈ text.toList, Form.delimits c = false

instance (text : String) : Decidable (Form.IsWord text) :=
  decidable_of_iff (text.toList ≠ [] ∧ text.toList.all (fun c => Form.delimits c = false) = true)
    ⟨fun h => ⟨h.1, fun c hc => of_decide_eq_true (List.all_eq_true.mp h.2 c hc)⟩, fun h =>
      ⟨h.ne_nil, List.all_eq_true.mpr fun c hc => decide_eq_true (h.plain c hc)⟩⟩

mutual

/-- The words of the form are words, and its quoted texts have no quotes in them. -/
def Form.Plain : Form → Prop
  | .word text => Form.IsWord text
  | .quoted text => '"' ∉ text.toList
  | .signature name params => Form.IsWord name ∧ ∀ param ∈ params, Form.IsWord param
  | .node head items => Form.IsWord head ∧ Form.PlainEach items

/-- All forms are plain. -/
def Form.PlainEach : List Form → Prop
  | [] => True
  | form :: forms => form.Plain ∧ Form.PlainEach forms

end

namespace Form

variable {word word' : String} {rest rest' : List Char} {c : Char}

/-- A word ends here: with a space, a closing parenthesis, a new line or the text. -/
def Ends (rest : List Char) : Prop :=
  ∀ c ∈ rest.head?, c ∈ [' ', ')', '\n']

theorem ends_cons (h : c ∈ [' ', ')', '\n']) : Ends (c :: rest) := by
  intro d hd
  cases hd
  exact h

/-! ### Words -/

/-- A word is all that stands before the next delimiter. -/
theorem IsWord.takeWhile (h : IsWord word) (hrest : ∀ c ∈ rest.head?, delimits c = true) :
    (word.toList ++ rest).takeWhile (fun c => !delimits c) = word.toList := by
  rw [List.takeWhile_append_of_pos fun c hc => by rw [h.plain c hc]; rfl]
  cases rest with
  | nil => exact List.append_nil _
  | cons c rest =>
    rw [List.takeWhile_cons_of_neg (by rw [hrest c rfl]; exact Bool.false_ne_true), List.append_nil]

/-- Two words at the front of a text are the same. -/
theorem IsWord.unique (h : IsWord word) (h' : IsWord word')
    (hrest : ∀ c ∈ rest.head?, delimits c = true) (hrest' : ∀ c ∈ rest'.head?, delimits c = true)
    (heq : word.toList ++ rest = word'.toList ++ rest') : word = word' ∧ rest = rest' := by
  -- Both are all that stands before the first delimiter of the same text.
  have hword : word.toList = word'.toList := by
    rw [← h.takeWhile hrest, heq, h'.takeWhile hrest']
  rw [hword] at heq
  exact ⟨String.toList_injective hword, List.append_cancel_left heq⟩

/-- A word does not start with a delimiter. -/
theorem IsWord.ne_cons (h : IsWord word) (hc : delimits c = true) :
    word.toList ++ rest ≠ c :: rest' := by
  obtain ⟨d, cs, hword⟩ := List.exists_cons_of_ne_nil h.ne_nil
  intro heq
  rw [hword, List.cons_append, List.cons.injEq] at heq
  have hplain := h.plain d (hword ▸ List.mem_cons_self)
  rw [heq.1, hc] at hplain
  cases hplain

theorem Ends.delimits (h : Ends rest) : ∀ c ∈ rest.head?, Form.delimits c = true := by
  intro c hc
  have hmem := h c hc
  simp only [List.mem_cons, List.not_mem_nil, or_false] at hmem
  rcases hmem with rfl | rfl | rfl <;> rfl

theorem ends_spacedEach (words : List String) (rest : List Char) :
    Ends (spacedEach words ++ ')' :: rest) := by
  cases words with
  | nil => exact ends_cons (by decide)
  | cons word words => exact ends_cons (by decide)

theorem spacedEach_inj {words words' : List String} (h : ∀ w ∈ words, IsWord w)
    (h' : ∀ w ∈ words', IsWord w)
    (heq : spacedEach words ++ ')' :: rest = spacedEach words' ++ ')' :: rest') :
    words = words' ∧ rest = rest' := by
  induction words generalizing words' with
  | nil =>
    cases words' with
    | nil => exact ⟨rfl, List.tail_eq_of_cons_eq heq⟩
    | cons word' words' => exact absurd (List.head_eq_of_cons_eq heq) (by decide)
  | cons word words ih =>
    cases words' with
    | nil => exact absurd (List.head_eq_of_cons_eq heq) (by decide)
    | cons word' words' =>
      obtain ⟨hword, hwords⟩ := List.forall_mem_cons.mp h
      obtain ⟨hword', hwords'⟩ := List.forall_mem_cons.mp h'
      have hfront : word.toList ++ (spacedEach words ++ ')' :: rest) =
          word'.toList ++ (spacedEach words' ++ ')' :: rest') := by
        simpa only [spacedEach, List.flatMap_cons, List.cons_append, List.append_assoc,
          List.cons.injEq, true_and] using heq
      obtain ⟨rfl, hafter⟩ := hword.unique hword' (ends_spacedEach words rest).delimits
        (ends_spacedEach words' rest').delimits hfront
      obtain ⟨rfl, hrest⟩ := ih hwords hwords' hafter
      exact ⟨rfl, hrest⟩

/-- Words between parentheses are told apart by the spaces. -/
theorem spaced_inj {words words' : List String} (h : ∀ w ∈ words, IsWord w)
    (h' : ∀ w ∈ words', IsWord w)
    (heq : spaced words ++ ')' :: rest = spaced words' ++ ')' :: rest') :
    words = words' ∧ rest = rest' := by
  cases words with
  | nil =>
    cases words' with
    | nil => exact ⟨rfl, List.tail_eq_of_cons_eq heq⟩
    | cons word' words' =>
      rw [spaced, spaced, List.append_assoc] at heq
      exact absurd heq.symm ((List.forall_mem_cons.mp h').1.ne_cons rfl)
  | cons word words =>
    cases words' with
    | nil =>
      rw [spaced, spaced, List.append_assoc] at heq
      exact absurd heq ((List.forall_mem_cons.mp h).1.ne_cons rfl)
    | cons word' words' =>
      obtain ⟨hword, hwords⟩ := List.forall_mem_cons.mp h
      obtain ⟨hword', hwords'⟩ := List.forall_mem_cons.mp h'
      rw [spaced, spaced, List.append_assoc, List.append_assoc] at heq
      obtain ⟨rfl, hafter⟩ := hword.unique hword' (ends_spacedEach words rest).delimits
        (ends_spacedEach words' rest').delimits heq
      obtain ⟨rfl, hrest⟩ := spacedEach_inj hwords hwords' hafter
      exact ⟨rfl, hrest⟩

/-- Texts between quotes are told apart by the quotes. -/
theorem quoted_inj {text text' : String} (h : '"' ∉ text.toList) (h' : '"' ∉ text'.toList)
    (heq : text.toList ++ '"' :: rest = text'.toList ++ '"' :: rest') :
    text = text' ∧ rest = rest' := by
  have hinside : ∀ {text : String} {rest : List Char}, '"' ∉ text.toList →
      (text.toList ++ '"' :: rest).takeWhile (· ≠ '"') = text.toList := by
    intro text rest h
    have hother : ∀ c ∈ text.toList, decide (c ≠ '"') = true := by
      intro c hc
      refine decide_eq_true fun hquote => h ?_
      rwa [← hquote]
    rw [List.takeWhile_append_of_pos hother, List.takeWhile_cons_of_neg (by decide),
      List.append_nil]
  have htext : text.toList = text'.toList := by
    rw [← @hinside text rest h, heq, hinside h']
  rw [htext] at heq
  exact ⟨String.toList_injective htext, List.tail_eq_of_cons_eq (List.append_cancel_left heq)⟩

/-! ### Forms -/

theorem ends_charsEach (forms : List Form) (rest : List Char) :
    Ends (charsEach forms ++ ')' :: rest) := by
  cases forms with
  | nil => exact ends_cons (by decide)
  | cons form forms => exact ends_cons (by decide)

theorem delimits_paren : ∀ c ∈ ('(' :: rest).head?, delimits c = true := by
  rintro c ⟨⟩
  rfl

mutual

/-- No plain form is printed like the beginning of another one. -/
theorem chars_inj : ∀ (f g : Form) {rest rest' : List Char}, f.Plain → g.Plain → Ends rest →
    Ends rest' → f.chars ++ rest = g.chars ++ rest' → f = g ∧ rest = rest'
  | .word text, .word text', _, _, hf, hg, hrest, hrest', heq => by
    obtain ⟨rfl, hafter⟩ := IsWord.unique hf hg hrest.delimits hrest'.delimits heq
    exact ⟨rfl, hafter⟩
  | .word text, .signature name params, _, _, hf, hg, hrest, _, heq => by
    rw [chars, chars, List.append_assoc] at heq
    -- A parenthesis right behind a name is that of a signature, while behind a word stands
    -- a space, a closing parenthesis or a new line.
    obtain ⟨-, rfl⟩ := IsWord.unique hf hg.1 hrest.delimits delimits_paren heq
    exact absurd (hrest '(' rfl) (by decide)
  | .signature name params, .word text, _, _, hf, hg, _, hends, heq => by
    rw [chars, chars, List.append_assoc] at heq
    obtain ⟨-, rfl⟩ := hf.1.unique hg delimits_paren hends.delimits heq
    exact absurd (hends '(' rfl) (by decide)
  | .signature name params, .signature name' params', rest, rest', hf, hg, _, _, heq => by
    simp only [chars, List.append_assoc, List.cons_append, List.nil_append] at heq
    obtain ⟨rfl, hafter⟩ := hf.1.unique hg.1 delimits_paren delimits_paren heq
    obtain ⟨rfl, hrest⟩ := spaced_inj hf.2 hg.2 (List.tail_eq_of_cons_eq hafter)
    exact ⟨rfl, hrest⟩
  | .quoted text, .quoted text', _, _, hf, hg, _, _, heq => by
    simp only [chars, List.append_assoc, List.cons_append, List.nil_append] at heq
    obtain ⟨rfl, hrest⟩ := quoted_inj hf hg (List.tail_eq_of_cons_eq heq)
    exact ⟨rfl, hrest⟩
  | .node head items, .node head' items', _, _, hf, hg, _, _, heq => by
    simp only [chars, List.append_assoc, List.cons_append, List.nil_append] at heq
    obtain ⟨rfl, hafter⟩ := hf.1.unique hg.1 (ends_charsEach items _).delimits
      (ends_charsEach items' _).delimits (List.tail_eq_of_cons_eq heq)
    obtain ⟨rfl, hrest⟩ := charsEach_inj items items' hf.2 hg.2 hafter
    exact ⟨rfl, hrest⟩
  | .word _, .quoted _, _, _, hf, _, _, _, heq
  | .word _, .node _ _, _, _, hf, _, _, _, heq => absurd heq (IsWord.ne_cons hf rfl)
  | .quoted _, .word _, _, _, _, hg, _, _, heq
  | .node _ _, .word _, _, _, _, hg, _, _, heq => absurd heq.symm (IsWord.ne_cons hg rfl)
  | .signature _ _, .quoted _, _, _, hf, _, _, _, heq
  | .signature _ _, .node _ _, _, _, hf, _, _, _, heq => by
    rw [chars, chars, List.append_assoc] at heq
    exact absurd heq (hf.1.ne_cons rfl)
  | .quoted _, .signature _ _, _, _, _, hg, _, _, heq
  | .node _ _, .signature _ _, _, _, _, hg, _, _, heq => by
    have heq := heq.symm
    rw [chars, chars, List.append_assoc] at heq
    exact absurd heq (hg.1.ne_cons rfl)
  | .quoted _, .node _ _, _, _, _, _, _, _, heq
  | .node _ _, .quoted _, _, _, _, _, _, _, heq =>
    absurd (List.head_eq_of_cons_eq heq) (by decide)

theorem charsEach_inj : ∀ (fs gs : List Form) {rest rest' : List Char}, PlainEach fs →
    PlainEach gs → charsEach fs ++ ')' :: rest = charsEach gs ++ ')' :: rest' →
      fs = gs ∧ rest = rest'
  | [], [], _, _, _, _, heq => ⟨rfl, List.tail_eq_of_cons_eq heq⟩
  | [], _ :: _, _, _, _, _, heq | _ :: _, [], _, _, _, _, heq =>
    absurd (List.head_eq_of_cons_eq heq) (by decide)
  | f :: fs, g :: gs, _, _, hf, hg, heq => by
    simp only [charsEach, List.append_assoc, List.cons_append] at heq
    obtain ⟨rfl, hafter⟩ := chars_inj f g hf.1 hg.1 (ends_charsEach fs _) (ends_charsEach gs _)
      (List.tail_eq_of_cons_eq heq)
    obtain ⟨rfl, hrest⟩ := charsEach_inj fs gs hf.2 hg.2 hafter
    exact ⟨rfl, hrest⟩

end

end Form

end Lox
