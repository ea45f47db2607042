/-
The text of a program is not ambiguous.

Two programs that are read, from whatever sources, have the same text only if they are the
same but for ids and lines.  Numbers have to be finite: an infinite one is printed like the
name `inf`.

* `TokenStream.word_of_mem` — the tokens of a source are words;
* `Program.printable_of_read` — the leaves of a program that is read are printable;
* `Program.form_inj` — programs with the same text have statements of the same forms;
* `Program.text_eq_iff` — they are the same but for ids and lines.
-/
import Lox.CommandLine
import Lox.Proofs.Lexing.Pieces
import Lox.Proofs.Printing.Injective
import Lox.Proofs.Relabelling.Reading

namespace Lox

/-- The text of a program, one statement per line. -/
def Program.text (program : Program) : String :=
  String.join (program.map fun s => s.text ++ "\n")

/-- The text of its program is what is printed of a script that is accepted. -/
theorem Report.ofTree_eq (source : String) :
    ofTree source = match ((Session.start (.ofLimit none)).parse source).1 with
      | .ok program => ofDiagnostics program.text []
      | .error diagnostics => ofDiagnostics "" diagnostics :=
  rfl

/-- Is the leaf a finite number, or no number at all? -/
def Leaf.isFinite : Leaf → Bool
  | .literal (.number x) => x.isFinite
  | _ => true

/-- The numbers in the program are finite. -/
def Program.FiniteNumbers (program : Program) : Prop :=
  ∀ leaf ∈ Stmt.leavesEach program, leaf.isFinite = true

instance (program : Program) : Decidable program.FiniteNumbers :=
  inferInstanceAs (Decidable (∀ leaf ∈ Stmt.leavesEach program, leaf.isFinite = true))

/-! ### Printable leaves -/

/-- The tokens of a source are words, but for the end of the file. -/
theorem TokenStream.word_of_mem {source : String} {t : Token}
    (h : t ∈ (TokenStream.ofSource source).tokens) (hk : t.kind ≠ .endOfFile) :
    Token.Word t.kind t.lexeme.toList := by
  have hmem : t ∈ (ofPieces 1 (Piece.ofSource source.toList)).tokens.dropLast := by
    rw [ofSource, ofPieces_eq] at h
    rw [ofPieces_eq, List.dropLast_concat]
    rcases List.mem_append.mp h with h | h
    · exact h
    · exact absurd (congrArg Token.kind (List.mem_singleton.mp h)) hk
  exact word_of_mem_ofPieces hmem

theorem Literal.kind_of_string {kind : Token.Kind} {s : String}
    (h : ofKind? kind = some (.string s)) : kind = .string s := by
  unfold ofKind? at h
  split at h <;> cases h
  rfl

theorem Token.Word.no_quote {s : String} {text : List Char} (h : Word (.string s) text) :
    '"' ∉ s.toList := by
  cases h with
  | string closed => rwa [String.toList_ofList]

theorem Leaf.From.printable {source : String} {leaf : Leaf}
    (h : leaf.From (TokenStream.ofSource source).tokens)
    (hfinite : leaf.isFinite = true) : leaf.Printable := by
  cases h with
  | name mem kind =>
    have hword := TokenStream.word_of_mem mem fun hend => by cases kind.symm.trans hend
    rwa [kind] at hword
  | @literal token value mem kind =>
    cases value with
    | number x => exact hfinite
    | string s =>
      have hkind := Literal.kind_of_string kind
      have hword := TokenStream.word_of_mem mem fun hend => by cases hkind.symm.trans hend
      rw [hkind] at hword
      exact hword.no_quote
    | boolean b => trivial
    | nil => trivial
  | always => trivial

/-- The leaves of a program that is read are printable, if its numbers are finite. -/
theorem Program.printable_of_read {n : Nat} {source : String}
    (h : (read n (TokenStream.ofSource source).tokens).program.FiniteNumbers) :
    Printable (Stmt.leavesEach (read n (TokenStream.ofSource source).tokens).program) :=
  fun leaf hleaf => (leaves_from n _ leaf hleaf).printable (h leaf hleaf)

/-! ### Statements on lines -/

theorem Program.toList_text (program : Program) :
    (text program).toList = program.flatMap fun s => s.form.chars ++ ['\n'] := by
  unfold text
  induction program with
  | nil => rfl
  | cons s program ih =>
    rw [List.map_cons, String.join_cons, String.toList_append, ih, String.toList_append,
      List.flatMap_cons, s.chars_form]
    rfl

/-- Programs with the same text have statements of the same forms. -/
theorem Program.form_inj {p q : Program} (hp : Printable (Stmt.leavesEach p))
    (hq : Printable (Stmt.leavesEach q))
    (h : p.flatMap (fun s => s.form.chars ++ ['\n']) = q.flatMap fun s => s.form.chars ++ ['\n']) :
    Stmt.formEach p = Stmt.formEach q := by
  induction p generalizing q with
  | nil =>
    cases q with
    | nil => rfl
    | cons s' q => simp at h
  | cons s p ih =>
    cases q with
    | nil => simp at h
    | cons s' q =>
      obtain ⟨hs, hothers⟩ := printable_append.mp hp
      obtain ⟨hs', hothers'⟩ := printable_append.mp hq
      rw [List.flatMap_cons, List.flatMap_cons, List.append_assoc, List.append_assoc] at h
      -- The line ends where the form does, as no form is the beginning of another one.
      obtain ⟨hform, hrest⟩ := Form.chars_inj s.form s'.form (s.plain_form hs) (s'.plain_form hs')
        (Form.ends_cons (by decide)) (Form.ends_cons (by decide)) h
      rw [Stmt.formEach, Stmt.formEach, hform, ih hothers hothers' (List.tail_eq_of_cons_eq hrest)]

theorem Program.text_relabel (r : Relabelling) (p : Program) : (p.relabel r).text = p.text := by
  have hlines : ∀ p : Program, p.text = String.join ((p.map Stmt.text).map (· ++ "\n")) := by
    intro p
    rw [text, List.map_map]
    rfl
  rw [hlines, hlines, texts_relabel]

/-- Two programs that are read have the same text if and only if they are the same but for
ids and lines. -/
theorem Program.text_eq_iff (n m : Nat) (source source' : String)
    (h : (read n (TokenStream.ofSource source).tokens).program.FiniteNumbers)
    (h' : (read m (TokenStream.ofSource source').tokens).program.FiniteNumbers) :
    (read n (TokenStream.ofSource source).tokens).program.text =
        (read m (TokenStream.ofSource source').tokens).program.text ↔
      (read n (TokenStream.ofSource source).tokens).program.relabel .bare =
        (read m (TokenStream.ofSource source').tokens).program.relabel .bare := by
  have hprintable := printable_of_read h
  have hprintable' := printable_of_read h'
  constructor
  · intro heq
    have hchars := congrArg String.toList heq
    rw [toList_text, toList_text] at hchars
    exact Stmt.formEach_inj _ _ hprintable hprintable' (form_inj hprintable hprintable' hchars)
  · intro heq
    rw [← text_relabel .bare, heq, text_relabel]

/-- Other spaces, other ids and another spelling of the number. -/
theorem Program.text_eq_iff_spaces :
    (read 0 (TokenStream.ofSource "x = 0.5;").tokens).program.FiniteNumbers ∧
      (read 7 (TokenStream.ofSource "\nx = 0.50;").tokens).program.FiniteNumbers ∧
        ((read 0 (TokenStream.ofSource "x = 0.5;").tokens).program.text =
            (read 7 (TokenStream.ofSource "\nx = 0.50;").tokens).program.text ↔
          (read 0 (TokenStream.ofSource "x = 0.5;").tokens).program.relabel .bare =
            (read 7 (TokenStream.ofSource "\nx = 0.50;").tokens).program.relabel .bare) :=
  have h : (read 0 (TokenStream.ofSource "x = 0.5;").tokens).program.FiniteNumbers := by
    decide +kernel
  have h' : (read 7 (TokenStream.ofSource "\nx = 0.50;").tokens).program.FiniteNumbers := by
    decide +kernel
  ⟨h, h', text_eq_iff 0 7 "x = 0.5;" "\nx = 0.50;" h h'⟩

end Lox
