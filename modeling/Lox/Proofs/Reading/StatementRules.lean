/-
What the readers of statements and declarations bring about.

One rule for each rule of the grammar of statements, declarations and programs,
in the manner of the rules for expressions.  `Reader.attempt` is what the reader of a
declaration recovers from.
-/
import Lox.Proofs.Reading.ExpressionRules

namespace Lox

/-- Does a token of this kind start a statement that is not a mere expression? -/
def Token.Kind.opensStatement (kind : Token.Kind) : Bool :=
  kind ∈ [.keyword .print, .symbol .leftBrace, .keyword .if, .keyword .while, .keyword .for,
    .keyword .return]

namespace Reader

variable {s : ReaderState} {E : Stop → ReaderState → Prop} {depth : Nat}

/-! ### Simple statements -/

theorem meets_returnStatement {Q : Stmt → ReaderState → Prop} {line : Nat}
    (bare : (Token.Kind.symbol .semicolon).Starts s.tokens →
      (expectSymbol .semicolon "';' after return value").Meets s
        (fun _ s₁ => Q (.returnValue line none) s₁) E)
    (withValue : ¬ (Token.Kind.symbol .semicolon).Starts s.tokens →
      (assignment depth).Meets s (fun value s₁ =>
        (expectSymbol .semicolon "';' after return value").Meets s₁
          (fun _ s₂ => Q (.returnValue line (some value)) s₂) E) E) :
    (returnStatement depth line).Meets s Q E := by
  refine Meets.bind (meets_sees ?_ ?_)
  · intro h
    exact Meets.bind (meets_pure (Meets.bind ((bare h).imp fun _ s₁ hq => meets_pure hq)))
  · intro h
    refine Meets.bind (Meets.map ((withValue h).imp fun value s₁ hq => ?_))
    exact Meets.bind (hq.imp fun _ s₂ hq' => meets_pure hq')

theorem meets_expressionStatement {Q : Stmt → ReaderState → Prop}
    (h : (assignment depth).Meets s (fun value s₁ =>
      (expectSymbol .semicolon "';' after expression").Meets s₁
        (fun _ s₂ => Q (.expression value) s₂) E) E) :
    (expressionStatement depth).Meets s Q E :=
  Meets.bind (h.imp fun _ _ hq => Meets.bind (hq.imp fun _ _ hq' => meets_pure hq'))

theorem meets_printStatement {Q : Stmt → ReaderState → Prop}
    (h : (assignment depth).Meets s (fun value s₁ =>
      (expectSymbol .semicolon "';' after value").Meets s₁
        (fun _ s₂ => Q (.print value) s₂) E) E) :
    (printStatement depth).Meets s Q E :=
  Meets.bind (h.imp fun _ _ hq => Meets.bind (hq.imp fun _ _ hq' => meets_pure hq'))

theorem meets_varDeclaration {Q : Stmt → ReaderState → Prop}
    (h : (expectName "variable name").Meets s (fun name s₁ =>
      (∀ equal rest, s₁.tokens = equal :: rest → equal.kind = .symbol .equal →
        (assignment depth).Meets { s₁ with tokens := rest } (fun value s₂ =>
          (expectSymbol .semicolon "';' after variable declaration").Meets s₂
            (fun _ s₃ => Q (.varDecl name (some value)) s₃) E) E) ∧
      (¬ (Token.Kind.symbol .equal).Starts s₁.tokens →
        (expectSymbol .semicolon "';' after variable declaration").Meets s₁
          (fun _ s₂ => Q (.varDecl name none) s₂) E)) E) :
    (varDeclaration depth).Meets s Q E := by
  refine Meets.bind (h.imp fun name s₁ ⟨withValue, bare⟩ => Meets.bind (meets_accept ?_ ?_))
  · intro equal rest hs hk
    refine Meets.bind (Meets.map ((withValue equal rest hs hk).imp fun value s₂ hq => ?_))
    exact Meets.bind (hq.imp fun _ s₃ hq' => meets_pure hq')
  · intro hn
    exact Meets.bind (meets_pure (Meets.bind ((bare hn).imp fun _ s₂ hq => meets_pure hq)))

/-! ### Clauses of a loop -/

theorem meets_forInitializer {Q : Option Stmt → ReaderState → Prop}
    (none : ∀ token rest, s.tokens = token :: rest → token.kind = .symbol .semicolon →
      Q none { s with tokens := rest })
    (varDecl : ∀ token rest, s.tokens = token :: rest → token.kind = .keyword .var →
      (varDeclaration depth).Meets { s with tokens := rest }
        (fun first s₁ => Q (some first) s₁) E)
    (expression : ¬ (Token.Kind.symbol .semicolon).Starts s.tokens →
      ¬ (Token.Kind.keyword .var).Starts s.tokens →
      (expressionStatement depth).Meets s (fun first s₁ => Q (some first) s₁) E) :
    (forInitializer depth).Meets s Q E := by
  refine Meets.bind (meets_accept ?_ ?_)
  · exact fun token rest hs hk => meets_pure (none token rest hs hk)
  · intro hsemicolon
    refine Meets.bind (meets_accept ?_ ?_)
    · intro token rest hs hk
      exact Meets.bind ((varDecl token rest hs hk).imp fun _ _ hq => meets_pure hq)
    · intro hvar
      exact Meets.bind ((expression hsemicolon hvar).imp fun _ _ hq => meets_pure hq)

theorem meets_optionalBefore {Q : Option Expr → ReaderState → Prop} {symbol : Symbol}
    (none : (Token.Kind.symbol symbol).Starts s.tokens → Q none s)
    (some : ¬ (Token.Kind.symbol symbol).Starts s.tokens →
      (assignment depth).Meets s (fun value s₁ => Q (some value) s₁) E) :
    (optionalBefore depth symbol).Meets s Q E := by
  refine Meets.bind (meets_sees ?_ ?_)
  · exact fun h => meets_pure (none h)
  · exact fun h => Meets.bind ((some h).imp fun _ _ hq => meets_pure hq)

/-! ### Functions and classes -/

theorem meets_parameters {Q : List Name → ReaderState → Prop} {count : Nat}
    (h : (expectName "parameter name").Meets (ReaderState.counted s "parameters" count)
      (fun param s₁ =>
        (∀ comma rest, s₁.tokens = comma :: rest → comma.kind = .symbol .comma →
          (parameters depth (count + 1)).Meets { s₁ with tokens := rest }
            (fun others s₂ => Q (param :: others) s₂) E) ∧
        (¬ (Token.Kind.symbol .comma).Starts s₁.tokens → Q [param] s₁)) E) :
    (parameters (depth + 1) count).Meets s Q E := by
  rw [parameters]
  refine meets_counting (Meets.bind (h.imp fun param s₁ ⟨more, last⟩ => ?_))
  refine Meets.bind (meets_accept ?_ ?_)
  · intro comma rest hs hk
    exact Meets.bind ((more comma rest hs hk).imp fun others s₂ hq => meets_pure hq)
  · exact fun hn => meets_pure (last hn)

theorem meets_parameterList {Q : List Name → ReaderState → Prop}
    (none : (Token.Kind.symbol .rightParen).Starts s.tokens → Q [] s)
    (some : ¬ (Token.Kind.symbol .rightParen).Starts s.tokens →
      (parameters depth 0).Meets s Q E) :
    (parameterList depth).Meets s Q E := by
  refine Meets.bind (meets_sees ?_ ?_)
  · exact fun h => meets_pure (none h)
  · exact fun h => some h

theorem meets_superclass {Q : Option Reference → ReaderState → Prop}
    (some : ∀ token rest, s.tokens = token :: rest → token.kind = .symbol .less →
      (expectName "superclass name").Meets { s with tokens := rest } (fun name s₁ =>
        Q (some ⟨s₁.nextId, name⟩) { s₁ with nextId := s₁.nextId + 1 }) E)
    (none : ¬ (Token.Kind.symbol .less).Starts s.tokens → Q none s) :
    superclass.Meets s Q E := by
  refine Meets.bind (meets_accept ?_ ?_)
  · intro token rest hs hk
    refine Meets.bind ((some token rest hs hk).imp fun name s₁ hq => ?_)
    exact Meets.bind (meets_freshId (meets_pure hq))
  · exact fun hn => meets_pure (none hn)

theorem meets_function {Q : FunctionDecl → ReaderState → Prop} {role : FunctionRole}
    (h : (expectName (role.text ++ " name")).Meets s (fun name s₁ =>
      (expectSymbol .leftParen ("'(' after " ++ role.text ++ " name")).Meets s₁ (fun _ s₂ =>
        (parameterList depth).Meets s₂ (fun params s₃ =>
          (expectSymbol .rightParen "')' after parameters").Meets s₃ (fun _ s₄ =>
            (expectSymbol .leftBrace ("'\x7b' before " ++ role.text ++ " body")).Meets s₄
              (fun _ s₅ => (block depth).Meets s₅ (fun body s₆ =>
                Q ⟨name, params, body⟩ s₆) E) E) E) E) E) E) :
    (function (depth + 1) role).Meets s Q E := by
  rw [function]
  refine Meets.bind (h.imp fun name s₁ h₁ => Meets.bind (h₁.imp fun _ s₂ h₂ => ?_))
  refine Meets.bind (h₂.imp fun params s₃ h₃ => Meets.bind (h₃.imp fun _ s₄ h₄ => ?_))
  exact Meets.bind (h₄.imp fun _ s₅ h₅ => Meets.bind (h₅.imp fun body s₆ hq => meets_pure hq))

/-- No further declaration or method stands in a body that goes on like this. -/
def BodyEnds (tokens : List Token) : Prop :=
  (Token.Kind.symbol .rightBrace).Starts tokens ∨ AtEnd tokens

theorem meets_untilBodyEnds {α : Type} {Q : α → ReaderState → Prop} {empty more : Reader α}
    (stop : BodyEnds s.tokens → empty.Meets s Q E)
    (go : ¬ BodyEnds s.tokens → more.Meets s Q E) :
    (do if (← sees (.symbol .rightBrace)) || (← atEnd) then empty else more : Reader α).Meets
      s Q E := by
  refine Meets.bind (meets_sees ?_ ?_)
  · intro h
    exact Meets.bind (meets_atEnd (fun _ => stop (.inl h)) fun _ => stop (.inl h))
  · intro h
    refine Meets.bind (meets_atEnd (fun hend => stop (.inr hend)) fun hend => go ?_)
    rintro (hb | he)
    · exact h hb
    · exact hend he

theorem meets_methods {Q : List FunctionDecl → ReaderState → Prop}
    (stop : BodyEnds s.tokens → Q [] s)
    (go : ¬ BodyEnds s.tokens → (function depth .method).Meets s (fun first s₁ =>
      (methods depth).Meets s₁ (fun others s₂ => Q (first :: others) s₂) E) E) :
    (methods (depth + 1)).Meets s Q E := by
  rw [methods]
  refine meets_untilBodyEnds (fun h => meets_pure (stop h)) fun h => ?_
  exact Meets.bind ((go h).imp fun first s₁ h₁ =>
    Meets.bind (h₁.imp fun others s₂ hq => meets_pure hq))

theorem meets_declarations {Q : List Stmt → ReaderState → Prop}
    (stop : BodyEnds s.tokens → Q [] s)
    (go : ¬ BodyEnds s.tokens → (declaration depth).Meets s (fun first s₁ =>
      (declarations depth).Meets s₁ (fun others s₂ => Q (first.toList ++ others) s₂) E) E) :
    (declarations (depth + 1)).Meets s Q E := by
  rw [declarations]
  refine meets_untilBodyEnds (fun h => meets_pure (stop h)) fun h => ?_
  exact Meets.bind ((go h).imp fun first s₁ h₁ =>
    Meets.bind (h₁.imp fun others s₂ hq => meets_pure hq))

theorem meets_block {Q : List Stmt → ReaderState → Prop}
    (h : (declarations depth).Meets s (fun body s₁ =>
      (expectSymbol .rightBrace "'\x7d' after block").Meets s₁ (fun _ s₂ => Q body s₂) E) E) :
    (block (depth + 1)).Meets s Q E := by
  rw [block]
  exact Meets.bind (h.imp fun body s₁ h₁ => Meets.bind (h₁.imp fun _ s₂ hq => meets_pure hq))

/-! ### Statements -/

theorem meets_statement {Q : Stmt → ReaderState → Prop}
    (print : ∀ token rest, s.tokens = token :: rest → token.kind = .keyword .print →
      (printStatement depth).Meets { s with tokens := rest } Q E)
    (body : ∀ token rest, s.tokens = token :: rest → token.kind = .symbol .leftBrace →
      (block depth).Meets { s with tokens := rest } (fun body s₁ => Q (.block body) s₁) E)
    (ifElse : ∀ token rest, s.tokens = token :: rest → token.kind = .keyword .if →
      (expectSymbol .leftParen "'(' after 'if'").Meets { s with tokens := rest } (fun _ s₁ =>
        (assignment depth).Meets s₁ (fun condition s₂ =>
          (expectSymbol .rightParen "')' after if condition").Meets s₂ (fun _ s₃ =>
            (statement depth).Meets s₃ (fun thenBranch s₄ =>
              (∀ word rest, s₄.tokens = word :: rest → word.kind = .keyword .else →
                (statement depth).Meets { s₄ with tokens := rest } (fun elseBranch s₅ =>
                  Q (.ifElse condition thenBranch (some elseBranch)) s₅) E) ∧
              (¬ (Token.Kind.keyword .else).Starts s₄.tokens →
                Q (.ifElse condition thenBranch none) s₄)) E) E) E) E)
    (whileLoop : ∀ token rest, s.tokens = token :: rest → token.kind = .keyword .while →
      (expectSymbol .leftParen "'(' after 'while'").Meets { s with tokens := rest } (fun _ s₁ =>
        (assignment depth).Meets s₁ (fun condition s₂ =>
          (expectSymbol .rightParen "')' after condition").Meets s₂ (fun _ s₃ =>
            (statement depth).Meets s₃ (fun body s₄ => Q (.whileLoop condition body) s₄) E) E)
          E) E)
    (forLoop : ∀ token rest, s.tokens = token :: rest → token.kind = .keyword .for →
      (expectSymbol .leftParen "'(' after 'for'").Meets { s with tokens := rest } (fun _ s₁ =>
        (forInitializer depth).Meets s₁ (fun initializer s₂ =>
          (optionalBefore depth .semicolon).Meets s₂ (fun condition s₃ =>
            (expectSymbol .semicolon "';' after loop condition").Meets s₃ (fun _ s₄ =>
              (optionalBefore depth .rightParen).Meets s₄ (fun increment s₅ =>
                (expectSymbol .rightParen "')' after for clauses").Meets s₅ (fun _ s₆ =>
                  (statement depth).Meets s₆ (fun body s₇ =>
                    Q (Stmt.forLoop initializer condition increment body) s₇) E) E) E) E) E)
          E) E)
    (leave : ∀ token rest, s.tokens = token :: rest → token.kind = .keyword .return →
      (returnStatement depth token.line).Meets { s with tokens := rest } Q E)
    (expression : (∀ token rest, s.tokens = token :: rest → token.kind.opensStatement = false) →
      (expressionStatement depth).Meets s Q E) :
    (statement (depth + 1)).Meets s Q E := by
  rw [statement]
  refine Meets.bind (meets_peek ?_)
  rcases hs : s.tokens with _ | ⟨⟨kind, lexeme, line⟩, rest⟩
  · refine expression fun token rest h => ?_
    rw [hs] at h
    cases h
  · simp only [List.head?_cons]
    split
    · rename_i heq
      simp only [Option.some.injEq, Token.mk.injEq] at heq
      refine Meets.bind (meets_skip ?_)
      rw [hs]
      exact print _ _ hs heq.1
    · rename_i heq
      simp only [Option.some.injEq, Token.mk.injEq] at heq
      refine Meets.bind (meets_skip (Meets.bind ?_))
      rw [hs]
      exact (body _ _ hs heq.1).imp fun _ _ hq => meets_pure hq
    · rename_i heq
      simp only [Option.some.injEq, Token.mk.injEq] at heq
      refine Meets.bind (meets_skip (Meets.bind ?_))
      rw [hs]
      refine (ifElse _ _ hs heq.1).imp fun _ s₁ h₁ => Meets.bind (h₁.imp fun condition s₂ h₂ => ?_)
      refine Meets.bind (h₂.imp fun _ s₃ h₃ => Meets.bind (h₃.imp ?_))
      rintro thenBranch s₄ ⟨other, alone⟩
      refine Meets.bind (meets_accept ?_ ?_)
      · intro word rest' hs' hk'
        exact Meets.bind ((other word rest' hs' hk').imp fun _ _ hq => meets_pure hq)
      · exact fun hn => meets_pure (alone hn)
    · rename_i heq
      simp only [Option.some.injEq, Token.mk.injEq] at heq
      refine Meets.bind (meets_skip (Meets.bind ?_))
      rw [hs]
      refine (whileLoop _ _ hs heq.1).imp fun _ s₁ h₁ => ?_
      refine Meets.bind (h₁.imp fun condition s₂ h₂ => Meets.bind (h₂.imp fun _ s₃ h₃ => ?_))
      exact Meets.bind (h₃.imp fun _ _ hq => meets_pure hq)
    · rename_i heq
      simp only [Option.some.injEq, Token.mk.injEq] at heq
      refine Meets.bind (meets_skip (Meets.bind ?_))
      rw [hs]
      refine (forLoop _ _ hs heq.1).imp fun _ s₁ h₁ => ?_
      refine Meets.bind (h₁.imp fun initializer s₂ h₂ => Meets.bind (h₂.imp fun _ s₃ h₃ => ?_))
      refine Meets.bind (h₃.imp fun _ s₄ h₄ => Meets.bind (h₄.imp fun _ s₅ h₅ => ?_))
      refine Meets.bind (h₅.imp fun _ s₆ h₆ => ?_)
      exact Meets.bind (h₆.imp fun _ _ hq => meets_pure hq)
    · rename_i heq
      simp only [Option.some.injEq, Token.mk.injEq] at heq
      refine Meets.bind (meets_skip ?_)
      rw [hs]
      obtain ⟨hk, -, rfl⟩ := heq
      exact leave _ _ hs hk
    · rename_i hprint hbrace hif hwhile hfor hreturn
      refine expression fun token rest' h => ?_
      rw [hs, List.cons.injEq] at h
      rw [← h.1]
      have hp : kind ≠ .keyword .print := fun hk => hprint lexeme line (by rw [hk])
      have hb : kind ≠ .symbol .leftBrace := fun hk => hbrace lexeme line (by rw [hk])
      have hi : kind ≠ .keyword .if := fun hk => hif lexeme line (by rw [hk])
      have hw : kind ≠ .keyword .while := fun hk => hwhile lexeme line (by rw [hk])
      have hf : kind ≠ .keyword .for := fun hk => hfor lexeme line (by rw [hk])
      have hr : kind ≠ .keyword .return := fun hk => hreturn lexeme line (by rw [hk])
      simp [Token.Kind.opensStatement, hp, hb, hi, hw, hf, hr]

/-! ### Declarations -/

theorem meets_recover {Q : Option Stmt → ReaderState → Prop} {reader : Reader Stmt}
    (h : reader.Meets s (fun stmt s₁ => Q (some stmt) s₁) fun stop s₁ =>
      match stop with
      | .fault error => Q none { s₁ with
          tokens := resume s₁.tokens
          faults := s₁.faults ++ [⟨error, s₁.tokens.head?⟩] }
      | .exhausted => E .exhausted s₁) :
    (recover reader).Meets s Q E := by
  rw [Meets] at h ⊢
  unfold recover
  cases hr : reader s with
  | ok stmt s₁ =>
    rw [hr] at h
    exact h
  | error stop s₁ =>
    rw [hr] at h
    cases stop with
    | fault error => exact h
    | exhausted => exact h

/-- A declaration or statement, which stops where it does not fit. -/
def attempt (depth : Nat) : Reader Stmt := do
  match ← kind? with
  | some (.keyword .cls) =>
    skip
    let name ← expectName "class name"
    let superclass ← superclass
    expectSymbol .leftBrace "'\x7b' before class body"
    let methods ← methods depth
    expectSymbol .rightBrace "'\x7d' after class body"
    return .classDecl ⟨name, superclass, methods⟩
  | some (.keyword .fun) =>
    skip
    return .funDecl (← function depth .function)
  | some (.keyword .var) =>
    skip
    varDeclaration depth
  | _ => statement depth

/-- The reader of a declaration only recovers from an attempt. -/
theorem declaration_succ (depth : Nat) : declaration (depth + 1) = recover (attempt depth) := by
  rw [declaration]
  rfl

theorem meets_attempt {Q : Stmt → ReaderState → Prop}
    (cls : ∀ token rest, s.tokens = token :: rest → token.kind = .keyword .cls →
      (expectName "class name").Meets { s with tokens := rest } (fun name s₁ =>
        superclass.Meets s₁ (fun parent s₂ =>
          (expectSymbol .leftBrace "'\x7b' before class body").Meets s₂ (fun _ s₃ =>
            (methods depth).Meets s₃ (fun methods s₄ =>
              (expectSymbol .rightBrace "'\x7d' after class body").Meets s₄ (fun _ s₅ =>
                Q (.classDecl ⟨name, parent, methods⟩) s₅) E) E) E) E) E)
    (function : ∀ token rest, s.tokens = token :: rest → token.kind = .keyword .fun →
      (function depth .function).Meets { s with tokens := rest }
        (fun f s₁ => Q (.funDecl f) s₁) E)
    (varDecl : ∀ token rest, s.tokens = token :: rest → token.kind = .keyword .var →
      (varDeclaration depth).Meets { s with tokens := rest } Q E)
    (statement : ¬ (Token.Kind.keyword .cls).Starts s.tokens →
      ¬ (Token.Kind.keyword .fun).Starts s.tokens →
      ¬ (Token.Kind.keyword .var).Starts s.tokens →
      (statement depth).Meets s Q E) :
    (attempt depth).Meets s Q E := by
  rw [attempt]
  refine Meets.bind (meets_kind? ?_)
  rcases hs : s.tokens with _ | ⟨token, rest⟩
  · rw [hs] at statement
    exact statement Token.Kind.not_starts_nil Token.Kind.not_starts_nil Token.Kind.not_starts_nil
  · simp only [List.head?_cons, Option.map_some]
    split
    · rename_i hk
      simp only [Option.some.injEq] at hk
      refine Meets.bind (meets_skip (Meets.bind ?_))
      rw [hs]
      refine (cls token rest hs hk).imp fun name s₁ h₁ => Meets.bind (h₁.imp fun parent s₂ h₂ => ?_)
      refine Meets.bind (h₂.imp fun _ s₃ h₃ => Meets.bind (h₃.imp fun methods s₄ h₄ => ?_))
      exact Meets.bind (h₄.imp fun _ s₅ hq => meets_pure hq)
    · rename_i hk
      simp only [Option.some.injEq] at hk
      refine Meets.bind (meets_skip (Meets.bind ?_))
      rw [hs]
      exact (function token rest hs hk).imp fun f s₁ hq => meets_pure hq
    · rename_i hk
      simp only [Option.some.injEq] at hk
      refine Meets.bind (meets_skip ?_)
      rw [hs]
      exact varDecl token rest hs hk
    · rename_i hcls hfun hvar
      simp only [Option.some.injEq] at hcls hfun hvar
      rw [hs] at statement
      refine statement ?_ ?_ ?_ <;> rw [Token.Kind.starts_cons] <;> assumption

/-- What the reader of a declaration does apart from recovering. -/
theorem meets_declaration {Q : Option Stmt → ReaderState → Prop}
    {F : Stop → ReaderState → Prop}
    (cls : ∀ token rest, s.tokens = token :: rest → token.kind = .keyword .cls →
      (expectName "class name").Meets { s with tokens := rest } (fun name s₁ =>
        superclass.Meets s₁ (fun parent s₂ =>
          (expectSymbol .leftBrace "'\x7b' before class body").Meets s₂ (fun _ s₃ =>
            (methods depth).Meets s₃ (fun methods s₄ =>
              (expectSymbol .rightBrace "'\x7d' after class body").Meets s₄ (fun _ s₅ =>
                Q (some (.classDecl ⟨name, parent, methods⟩)) s₅) F) F) F) F) F)
    (function : ∀ token rest, s.tokens = token :: rest → token.kind = .keyword .fun →
      (function depth .function).Meets { s with tokens := rest }
        (fun f s₁ => Q (some (.funDecl f)) s₁) F)
    (varDecl : ∀ token rest, s.tokens = token :: rest → token.kind = .keyword .var →
      (varDeclaration depth).Meets { s with tokens := rest } (fun stmt s₁ => Q (some stmt) s₁) F)
    (statement : ¬ (Token.Kind.keyword .cls).Starts s.tokens →
      ¬ (Token.Kind.keyword .fun).Starts s.tokens →
      ¬ (Token.Kind.keyword .var).Starts s.tokens →
      (statement depth).Meets s (fun stmt s₁ => Q (some stmt) s₁) F)
    (fault : ∀ error s₁, F (.fault error) s₁ → Q none { s₁ with
      tokens := resume s₁.tokens
      faults := s₁.faults ++ [⟨error, s₁.tokens.head?⟩] })
    (exhausted : ∀ s₁, F .exhausted s₁ → E .exhausted s₁) :
    (declaration (depth + 1)).Meets s Q E := by
  rw [declaration_succ]
  have h := meets_attempt (Q := fun stmt s₁ => Q (some stmt) s₁) cls function varDecl statement
  refine meets_recover (h.mono (fun _ _ hq => hq) fun stop s₁ hF => ?_)
  cases stop with
  | fault error => exact fault error s₁ hF
  | exhausted => exact exhausted s₁ hF

theorem meets_program {Q : Program → ReaderState → Prop} (stop : AtEnd s.tokens → Q [] s)
    (go : ¬ AtEnd s.tokens → (declaration depth).Meets s (fun first s₁ =>
      (program depth).Meets s₁ (fun others s₂ => Q (first.toList ++ others) s₂) E) E) :
    (program (depth + 1)).Meets s Q E := by
  rw [program]
  refine Meets.bind (meets_atEnd (fun h => meets_pure (stop h)) fun h => ?_)
  exact Meets.bind ((go h).imp fun first s₁ h₁ =>
    Meets.bind (h₁.imp fun others s₂ hq => meets_pure hq))

end Reader

end Lox
