/-
Neither reading nor listing a program depends on the ids that are handed out.

* `Reader.program_within` — a whole program is read alike with a higher free id, after
  other faults and with more depth;
* `Program.read_up` — so higher ids are all that a higher free id changes;
* `Stmt.text_relabel` — the text of a statement shows no ids.
-/
import Lox.Proofs.Reading.Attempts
import Lox.Proofs.Reading.Contexts
import Lox.Syntax.Text

namespace Lox

/-- Whole programs are read alike in every context without more tokens. -/
theorem Reader.program_within (ids : Nat) (faults : List SyntaxFault) {depth : Nat}
    {s : ReaderState} (h : depthFor s.tokens ≤ depth) :
    ∃ p s', program (depthFor s.tokens) s = .ok p s' ∧
      program depth (s.within ⟨ids, faults, []⟩) =
        .ok (Stmt.relabelEach (.up ids) p) (s'.within ⟨ids, faults, []⟩) := by
  have hdepth : 16 * s.tokens.length + 13 ≤ depthFor s.tokens := by
    simp only [depthFor]
    omega
  obtain ⟨as, s', has⟩ := exists_attempts (depthFor s.tokens) s hdepth
  have halike := (alike_program (c := ⟨ids, faults, []⟩) h s).of_ok has.program_eq
  exact ⟨_, s', has.program_eq, halike.2 (.inr rfl)⟩

/-- Tokens are read alike wherever the ids start: with the same diagnostics, as the same
program up to its ids, for which as many are used. -/
theorem Program.read_up (k n : Nat) (tokens : List Token) :
    Program.read (n + k) tokens =
      { program := (Program.read n tokens).program.relabel (.up k)
        diagnostics := (Program.read n tokens).diagnostics
        nextId := (Program.read n tokens).nextId + k } := by
  obtain ⟨p, s', hread, hwithin⟩ := Reader.program_within k [] (s := ⟨tokens, n, []⟩)
    (Nat.le_refl _)
  have hstart : (⟨tokens, n, []⟩ : ReaderState).within ⟨k, [], []⟩ = ⟨tokens, n + k, []⟩ := by
    simp only [ReaderState.within, List.append_nil]
  rw [hstart] at hwithin
  unfold Program.read
  rw [hread, hwithin]
  rfl

/-! ### Texts -/

variable {r : Relabelling}

mutual

theorem Expr.text_relabel : ∀ e : Expr, (e.relabel r).text = e.text
  | .literal _ => rfl
  | .grouping inner => by simp only [Expr.relabel, Expr.text, inner.text_relabel]
  | .unary _ _ operand => by simp only [Expr.relabel, Expr.text, operand.text_relabel]
  | .binary left _ _ right => by
    simp only [Expr.relabel, Expr.text, left.text_relabel, right.text_relabel]
  | .logical left _ right => by
    simp only [Expr.relabel, Expr.text, left.text_relabel, right.text_relabel]
  | .varRef _ => rfl
  | .assign _ value => by
    simp only [Expr.relabel, Expr.text, value.text_relabel, Reference.relabel_name,
      Name.relabel_text]
  | .call callee arguments _ => by
    simp only [Expr.relabel, Expr.text, callee.text_relabel, Expr.textEach_relabel arguments]
  | .get object _ => by
    simp only [Expr.relabel, Expr.text, object.text_relabel, Name.relabel_text]
  | .set object _ value => by
    simp only [Expr.relabel, Expr.text, object.text_relabel, value.text_relabel,
      Name.relabel_text]
  | .thisRef _ _ => rfl
  | .superRef _ _ _ => rfl

theorem Expr.textEach_relabel : ∀ es : List Expr,
    Expr.textEach (Expr.relabelEach r es) = Expr.textEach es
  | [] => rfl
  | e :: es => by
    simp only [Expr.relabelEach, Expr.textEach, e.text_relabel, Expr.textEach_relabel es]

end

mutual

theorem Stmt.text_relabel : ∀ s : Stmt, (s.relabel r).text = s.text
  | .expression value => by simp only [Stmt.relabel, Stmt.text, value.text_relabel]
  | .print value => by simp only [Stmt.relabel, Stmt.text, value.text_relabel]
  | .varDecl _ none => rfl
  | .varDecl _ (some value) => by
    simp only [Stmt.relabel, Stmt.text, value.text_relabel, Name.relabel_text]
  | .block body => by simp only [Stmt.relabel, Stmt.text, Stmt.textEach_relabel body]
  | .ifElse condition thenBranch none => by
    simp only [Stmt.relabel, Stmt.text, condition.text_relabel, thenBranch.text_relabel]
  | .ifElse condition thenBranch (some elseBranch) => by
    simp only [Stmt.relabel, Stmt.text, condition.text_relabel, thenBranch.text_relabel,
      elseBranch.text_relabel]
  | .whileLoop condition body => by
    simp only [Stmt.relabel, Stmt.text, condition.text_relabel, body.text_relabel]
  | .funDecl function => function.text_relabel
  | .returnValue _ none => rfl
  | .returnValue _ (some value) => by simp only [Stmt.relabel, Stmt.text, value.text_relabel]
  | .classDecl declared => declared.text_relabel

theorem Stmt.textEach_relabel : ∀ ss : List Stmt,
    Stmt.textEach (Stmt.relabelEach r ss) = Stmt.textEach ss
  | [] => rfl
  | s :: ss => by
    simp only [Stmt.relabelEach, Stmt.textEach, s.text_relabel, Stmt.textEach_relabel ss]

theorem FunctionDecl.text_relabel : ∀ f : FunctionDecl, (f.relabel r).text = f.text
  | ⟨_, params, body⟩ => by
    have hparams : (params.map (Name.relabel r)).map Name.text = params.map Name.text :=
      List.map_map
    simp only [FunctionDecl.relabel, FunctionDecl.text, hparams, Stmt.textEach_relabel body,
      Name.relabel_text]

theorem FunctionDecl.textEach_relabel : ∀ fs : List FunctionDecl,
    FunctionDecl.textEach (FunctionDecl.relabelEach r fs) = FunctionDecl.textEach fs
  | [] => rfl
  | f :: fs => by
    simp only [FunctionDecl.relabelEach, FunctionDecl.textEach, f.text_relabel,
      FunctionDecl.textEach_relabel fs]

theorem ClassDecl.text_relabel : ∀ c : ClassDecl, (c.relabel r).text = c.text
  | ⟨_, none, methods⟩ => by
    simp only [ClassDecl.relabel, Option.map_none, ClassDecl.text, Name.relabel_text,
      FunctionDecl.textEach_relabel methods]
  | ⟨_, some _, methods⟩ => by
    simp only [ClassDecl.relabel, Option.map_some, ClassDecl.text, Name.relabel_text,
      Reference.relabel_name, FunctionDecl.textEach_relabel methods]

end

theorem Program.texts_relabel (p : Program) : (p.relabel r).map Stmt.text = p.map Stmt.text := by
  rw [Program.relabel, Stmt.relabelEach_eq_map, List.map_map]
  exact List.map_congr_left fun s _ => s.text_relabel

end Lox
