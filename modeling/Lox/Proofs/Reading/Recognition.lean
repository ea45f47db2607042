/-
Reading recognizes the grammar.

* `Program.read_recognizes` — a list of tokens is read without a diagnostic exactly
  when the tokens before the end of the file are declarations of the grammar; then
  what is read is their tree, and their only one up to ids.
-/
import Lox.Proofs.Reading.Completeness
import Lox.Proofs.Reading.Progress
import Lox.Proofs.Reading.Soundness

namespace Lox

open Grammar

/-- The tokens before the end of the file. -/
def tokensBeforeEnd (tokens : List Token) : List Token :=
  tokens.takeWhile (·.kind ≠ .endOfFile)

namespace Grammar

/-- No token of a phrase is the end of the file. -/
def Plain (ts : List Token) : Prop :=
  ∀ token ∈ ts, token.kind ≠ .endOfFile

variable {ts us : List Token} {token : Token}

@[simp] theorem plain_nil : Plain [] :=
  nofun

@[simp] theorem plain_cons : Plain (token :: ts) ↔ token.kind ≠ .endOfFile ∧ Plain ts :=
  List.forall_mem_cons

@[simp] theorem plain_append : Plain (ts ++ us) ↔ Plain ts ∧ Plain us :=
  List.forall_mem_append

theorem Join.kind_ne {left right e : Expr} {line : Nat} {level : Level} {kind : Token.Kind}
    (h : Join left line right level kind e) : kind ≠ .endOfFile := by
  rintro rfl
  cases h

mutual

theorem assignment_plain : ∀ {ts : List Token} {e : Expr}, Assignment ts e → Plain ts
  | _, _, .operand h => operand_plain h
  | _, _, .toVariable hname hequal hvalue => by
    simpa [hname, hequal] using assignment_plain hvalue
  | _, _, .toProperty hobject hdot hname hequal hvalue => by
    simpa [hdot, hname, hequal] using ⟨call_plain hobject, assignment_plain hvalue⟩

theorem operand_plain : ∀ {levels : List Level} {ts : List Token} {e : Expr},
    Operand levels ts e → Plain ts
  | _, _, _, .unary h => unary_plain h
  | _, _, _, .tighter h => operand_plain h
  | _, _, _, .join hleft hright hop => by
    simpa [hop.kind_ne] using ⟨operand_plain hleft, operand_plain hright⟩

theorem unary_plain : ∀ {ts : List Token} {e : Expr}, Unary ts e → Plain ts
  | _, _, .operator hop h => by
    refine plain_cons.mpr ⟨fun hk => ?_, unary_plain h⟩
    rw [hk] at hop
    cases hop
  | _, _, .call h => call_plain h

theorem call_plain : ∀ {ts : List Token} {e : Expr}, Call ts e → Plain ts
  | _, _, .primary h => primary_plain h
  | _, _, .call hcallee hopening harguments _ hclosing => by
    simpa [hopening, hclosing] using ⟨call_plain hcallee, arguments_plain harguments⟩
  | _, _, .property hobject hdot hname => by
    simpa [hdot, hname] using call_plain hobject

theorem arguments_plain : ∀ {ts : List Token} {es : List Expr}, Arguments ts es → Plain ts
  | _, _, .none => plain_nil
  | _, _, .last h => assignment_plain h
  | _, _, .more h hcomma hmore => by
    simpa [hcomma] using ⟨assignment_plain h, arguments_plain hmore⟩

theorem primary_plain : ∀ {ts : List Token} {e : Expr}, Primary ts e → Plain ts
  | _, _, .literal h => by
    refine plain_cons.mpr ⟨fun hk => ?_, plain_nil⟩
    rw [hk] at h
    cases h
  | _, _, .name h => by simp [h]
  | _, _, .this h => by simp [h]
  | _, _, .super h hdot hname => by simp [h, hdot, hname]
  | _, _, .grouping hopening h hclosing => by
    simpa [hopening, hclosing] using assignment_plain h

end

theorem expressionStatement_plain {s : Stmt} (h : ExpressionStatement ts s) : Plain ts := by
  obtain ⟨h, hsemicolon⟩ := h
  simpa [hsemicolon] using assignment_plain h

theorem variable_plain {s : Stmt} (h : Variable ts s) : Plain ts := by
  cases h with
  | bare hname hsemicolon => simp [hname, hsemicolon]
  | withValue hname hequal h hsemicolon =>
    simpa [hname, hequal, hsemicolon] using assignment_plain h

theorem initializer_plain {initializer : Option Stmt} (h : Initializer ts initializer) :
    Plain ts := by
  cases h with
  | none h => simp [h]
  | varDecl hword h => simpa [hword] using variable_plain h
  | expression h => exact expressionStatement_plain h

theorem optional_plain {clause : Option Expr} (h : Grammar.Optional ts clause) : Plain ts := by
  cases h with
  | none => exact plain_nil
  | some h => exact assignment_plain h

theorem parameters_plain : ∀ {ts : List Token} {names : List Name}, Parameters ts names → Plain ts
  | _, _, .none => plain_nil
  | _, _, .last h => by simp [h]
  | _, _, .more h hcomma hmore => by simpa [h, hcomma] using parameters_plain hmore

theorem superclass_plain {parent : Option Reference} (h : Superclass ts parent) : Plain ts := by
  cases h with
  | none => exact plain_nil
  | some hless hname => simp [hless, hname]

mutual

theorem statement_plain : ∀ {isOpen : Bool} {ts : List Token} {s : Stmt}, Statement isOpen ts s →
    Plain ts
  | _, _, _, .expression h => expressionStatement_plain h
  | _, _, _, .print hword h hsemicolon => by
    simpa [hword, hsemicolon] using assignment_plain h
  | _, _, _, .returnNothing hword hsemicolon => by simp [hword, hsemicolon]
  | _, _, _, .returnValue hword h hsemicolon => by
    simpa [hword, hsemicolon] using assignment_plain h
  | _, _, _, .block hopening h hclosing => by
    simpa [hopening, hclosing] using declarations_plain h
  | _, _, _, .ifThen hword hopening hcondition hclosing hthen => by
    simpa [hword, hopening, hclosing] using
      ⟨assignment_plain hcondition, statement_plain hthen⟩
  | _, _, _, .ifElse hword hopening hcondition hclosing hthen hother helse => by
    simpa [hword, hopening, hclosing, hother] using
      ⟨assignment_plain hcondition, statement_plain hthen, statement_plain helse⟩
  | _, _, _, .whileLoop hword hopening hcondition hclosing hbody => by
    simpa [hword, hopening, hclosing] using
      ⟨assignment_plain hcondition, statement_plain hbody⟩
  | _, _, _, .forLoop hword hopening hinitializer hcondition hsemicolon hincrement hclosing
      hbody _ => by
    simpa [hword, hopening, hsemicolon, hclosing] using
      ⟨initializer_plain hinitializer, optional_plain hcondition, optional_plain hincrement,
        statement_plain hbody⟩

theorem declaration_plain : ∀ {ts : List Token} {s : Stmt}, Declaration ts s → Plain ts
  | _, _, .cls hword hname hparent hopening hmethods hclosing => by
    simpa [hword, hname, hopening, hclosing] using
      ⟨superclass_plain hparent, methods_plain hmethods⟩
  | _, _, .function hword h => by simpa [hword] using function_plain h
  | _, _, .varDecl hword h => by simpa [hword] using variable_plain h
  | _, _, .statement h => statement_plain h

theorem declarations_plain : ∀ {ts : List Token} {ss : List Stmt}, Declarations ts ss → Plain ts
  | _, _, .nil => plain_nil
  | _, _, .cons h hrest => plain_append.mpr ⟨declaration_plain h, declarations_plain hrest⟩

theorem function_plain : ∀ {ts : List Token} {f : FunctionDecl}, Function ts f → Plain ts
  | _, _, .intro hname hopening hparams _ hclosing hbrace hbody hclosing' => by
    simpa [hname, hopening, hclosing, hbrace, hclosing'] using
      ⟨parameters_plain hparams, declarations_plain hbody⟩

theorem methods_plain : ∀ {ts : List Token} {fs : List FunctionDecl}, Methods ts fs → Plain ts
  | _, _, .nil => plain_nil
  | _, _, .cons h hrest => plain_append.mpr ⟨function_plain h, methods_plain hrest⟩

end

end Grammar

/-! ### Reading -/

theorem tokensBeforeEnd_plain {ts rest : List Token} (h : Plain ts) :
    tokensBeforeEnd (ts ++ rest) = ts ++ tokensBeforeEnd rest :=
  List.takeWhile_append_of_pos fun token ht => by simpa using h token ht

theorem tokensBeforeEnd_append {ts rest : List Token} (h : Plain ts) (hend : Reader.AtEnd rest) :
    tokensBeforeEnd (ts ++ rest) = ts := by
  rw [tokensBeforeEnd_plain h, tokensBeforeEnd]
  rcases hend with rfl | ⟨token, others, rfl, hk⟩
  · exact List.append_nil ts
  · rw [List.takeWhile_cons_of_neg (by simp [hk]), List.append_nil]

/-- After the tokens before the end reading is at the end. -/
theorem exists_eq_tokensBeforeEnd_append (tokens : List Token) :
    ∃ rest, tokens = tokensBeforeEnd tokens ++ rest ∧ Reader.AtEnd rest := by
  induction tokens with
  | nil => exact ⟨[], rfl, .inl rfl⟩
  | cons token tokens ih =>
    by_cases hk : token.kind = .endOfFile
    · refine ⟨token :: tokens, ?_, .inr ⟨token, tokens, rfl, hk⟩⟩
      rw [tokensBeforeEnd, List.takeWhile_cons_of_neg (by simp [hk]), List.nil_append]
    · obtain ⟨rest, htokens, hend⟩ := ih
      refine ⟨rest, ?_, hend⟩
      rw [tokensBeforeEnd, List.takeWhile_cons_of_pos (by simp [hk]), List.cons_append]
      exact congrArg _ htokens

namespace Program

/-- Without a fault, what is read is derived by the grammar. -/
theorem read_sound {n : Nat} {tokens : List Token} (h : (read n tokens).diagnostics = []) :
    Declarations (tokensBeforeEnd tokens) (read n tokens).program := by
  have hproceeds := Reader.program_proceeds (Reader.depthFor tokens) ⟨tokens, n, []⟩
    (by simp only [Reader.depthFor]; omega)
  have htook := Reader.program_took (Reader.depthFor tokens) ⟨tokens, n, []⟩
  rw [read] at h ⊢
  cases hr : Reader.program (Reader.depthFor tokens) ⟨tokens, n, []⟩ with
  | error stop s => exact (hproceeds.of_error hr).elim
  | ok program s =>
    rw [hr] at h
    obtain ⟨htook, hend⟩ := htook.of_ok hr
    obtain ⟨-, ts, hts, hderived⟩ := htook (List.map_eq_nil_iff.mp h)
    simp only at hts ⊢
    rwa [hts, tokensBeforeEnd_append (declarations_plain hderived) hend]

/-- What the grammar derives is read without a fault, up to ids. -/
theorem read_complete {n : Nat} {tokens : List Token} {p : Program}
    (h : Declarations (tokensBeforeEnd tokens) p) :
    (read n tokens).diagnostics = [] ∧
      (read n tokens).program.relabel .anonymous = p.relabel .anonymous := by
  obtain ⟨rest, htokens, hend⟩ := exists_eq_tokensBeforeEnd_append tokens
  obtain ⟨p', n', hsame, hruns⟩ := Reader.declarations_run h n
  have hlength := congrArg List.length htokens
  rw [List.length_append] at hlength
  have hdepth : 16 * (tokensBeforeEnd tokens).length + 13 ≤ Reader.depthFor tokens := by
    simp only [Reader.depthFor]
    omega
  have heq : Reader.program (Reader.depthFor tokens) ⟨tokensBeforeEnd tokens ++ rest, n, []⟩ = _ :=
    hruns.program_eq hdepth hend
  rw [← htokens] at heq
  rw [read, heq]
  exact ⟨rfl, hsame⟩

/-- A list of tokens is read without a diagnostic exactly when the tokens before the
end are declarations of the grammar.  What is read then is a tree that the grammar
gives to these tokens, and it gives them no other up to ids. -/
theorem read_recognizes (n : Nat) (tokens : List Token) :
    ((read n tokens).diagnostics = [] ↔ ∃ p, Declarations (tokensBeforeEnd tokens) p) ∧
    ((read n tokens).diagnostics = [] →
      Declarations (tokensBeforeEnd tokens) (read n tokens).program ∧
      ∀ p : Program, Declarations (tokensBeforeEnd tokens) p →
        p.relabel .anonymous = (read n tokens).program.relabel .anonymous) := by
  refine ⟨⟨fun h => ⟨_, read_sound h⟩, ?_⟩, fun h => ⟨read_sound h, fun p hp => ?_⟩⟩
  · rintro ⟨p, hp⟩
    exact (read_complete hp).1
  · exact (read_complete hp).2.symm

end Program

end Lox
