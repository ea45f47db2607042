/-
The statements and programs that the grammar derives are read.

One lemma for each production, then every phrase of the grammar is read as its
tree, up to ids, as for expressions:

* `statement_readable` ... `function_readable` — statements and declarations;
* `declarations_run` — the declarations of a program, whatever declarations follow.
-/
import Lox.Proofs.Reading.ExpressionCompleteness

namespace Lox.Reader

open Grammar

variable {ts us : List Token} {n n₁ n₂ n₃ : Nat}

/-! ### Clauses -/

theorem reads_expressionStatement {value : Expr} {semicolon : Token}
    (h : Reads assignment 10 EndsExpression ts n value n₁)
    (hsemicolon : semicolon.kind = .symbol .semicolon) :
    Reads expressionStatement 10 anything (ts ++ [semicolon]) n (.expression value) n₁ := by
  refine Reads.intro (by decide) fun depth rest faults hd _ => ?_
  simp only [List.length_append, List.length_singleton] at hd
  simp only [List.append_assoc, List.singleton_append]
  refine meets_expressionStatement (h.meets (by omega) ?_ ?_)
  · exact endsExpression_cons (by simp [hsemicolon])
  · exact meets_expectSymbol_cons hsemicolon ⟨rfl, rfl⟩

theorem reads_printStatement {value : Expr} {semicolon : Token}
    (h : Reads assignment 10 EndsExpression ts n value n₁)
    (hsemicolon : semicolon.kind = .symbol .semicolon) :
    Reads printStatement 10 anything (ts ++ [semicolon]) n (.print value) n₁ := by
  refine Reads.intro (by decide) fun depth rest faults hd _ => ?_
  simp only [List.length_append, List.length_singleton] at hd
  simp only [List.append_assoc, List.singleton_append]
  refine meets_printStatement (h.meets (by omega) ?_ ?_)
  · exact endsExpression_cons (by simp [hsemicolon])
  · exact meets_expectSymbol_cons hsemicolon ⟨rfl, rfl⟩

theorem reads_returnNothing {line : Nat} {semicolon : Token}
    (hsemicolon : semicolon.kind = .symbol .semicolon) :
    Reads (returnStatement · line) 10 anything [semicolon] n (.returnValue line none) n := by
  refine Reads.intro (by decide) fun depth rest faults hd _ => ?_
  refine meets_returnStatement (fun _ => ?_) fun hvalue => ?_
  · exact meets_expectSymbol_cons hsemicolon ⟨rfl, rfl⟩
  · exact absurd ⟨semicolon, rest, rfl, hsemicolon⟩ hvalue

theorem reads_returnValue {line : Nat} {value : Expr} {semicolon : Token}
    (hbegins : Begins Token.Kind.startsExpression ts)
    (h : Reads assignment 10 EndsExpression ts n value n₁)
    (hsemicolon : semicolon.kind = .symbol .semicolon) :
    Reads (returnStatement · line) 10 anything (ts ++ [semicolon]) n
      (.returnValue line (some value)) n₁ := by
  refine Reads.intro (by decide) fun depth rest faults hd _ => ?_
  simp only [List.length_append, List.length_singleton] at hd
  simp only [List.append_assoc, List.singleton_append]
  refine meets_returnStatement (fun hbare => ?_) fun _ => h.meets (by omega) ?_ ?_
  · exact absurd hbare ((hbegins.append _).not_starts (by decide))
  · exact endsExpression_cons (by simp [hsemicolon])
  · exact meets_expectSymbol_cons hsemicolon ⟨rfl, rfl⟩

theorem reads_bareVariable {name semicolon : Token} (hname : name.kind = .identifier)
    (hsemicolon : semicolon.kind = .symbol .semicolon) :
    Reads varDeclaration 10 anything [name, semicolon] n (.varDecl name.name none) n := by
  refine Reads.intro (by decide) fun depth rest faults hd _ => ?_
  refine meets_varDeclaration (meets_expectName_cons hname ⟨?_, fun _ => ?_⟩)
  · rintro _ _ ⟨⟩ hk
    simp [hsemicolon] at hk
  · exact meets_expectSymbol_cons hsemicolon ⟨rfl, rfl⟩

theorem reads_variable {name equal semicolon : Token} {value : Expr}
    (hname : name.kind = .identifier) (hequal : equal.kind = .symbol .equal)
    (h : Reads assignment 10 EndsExpression ts n value n₁)
    (hsemicolon : semicolon.kind = .symbol .semicolon) :
    Reads varDeclaration 10 anything (name :: equal :: (ts ++ [semicolon])) n
      (.varDecl name.name (some value)) n₁ := by
  refine Reads.intro (by decide) fun depth rest faults hd _ => ?_
  simp only [List.length_cons, List.length_append, List.length_nil] at hd
  simp only [List.cons_append, List.append_assoc, List.nil_append]
  refine meets_varDeclaration (meets_expectName_cons hname ⟨?_, fun hbare => ?_⟩)
  · rintro _ _ ⟨⟩ _
    refine h.meets (by omega) (endsExpression_cons (by simp [hsemicolon])) ?_
    exact meets_expectSymbol_cons hsemicolon ⟨rfl, rfl⟩
  · exact absurd ⟨equal, _, rfl, hequal⟩ hbare

theorem reads_noInitializer {semicolon : Token} (h : semicolon.kind = .symbol .semicolon) :
    Reads forInitializer 10 anything [semicolon] n none n := by
  refine Reads.intro (by decide) fun depth rest faults hd _ => ?_
  refine meets_forInitializer ?_ ?_ fun hnone _ => ?_
  · rintro _ _ ⟨⟩ _
    exact ⟨rfl, rfl⟩
  · rintro _ _ ⟨⟩ hk
    simp [h] at hk
  · exact absurd ⟨semicolon, rest, rfl, h⟩ hnone

theorem reads_varInitializer {word : Token} {first : Stmt} (hword : word.kind = .keyword .var)
    (h : Reads varDeclaration 10 anything ts n first n₁) :
    Reads forInitializer 10 anything (word :: ts) n (some first) n₁ := by
  refine Reads.intro (by decide) fun depth rest faults hd _ => ?_
  rw [List.length_cons] at hd
  refine meets_forInitializer ?_ ?_ fun _ hnone => ?_
  · rintro _ _ ⟨⟩ hk
    simp [hword] at hk
  · rintro _ _ ⟨⟩ _
    exact h.meets (by omega) trivial ⟨rfl, rfl⟩
  · exact absurd ⟨word, _, rfl, hword⟩ hnone

theorem reads_expressionInitializer {first : Stmt} (hbegins : Begins Token.Kind.startsExpression ts)
    (h : Reads expressionStatement 10 anything ts n first n₁) :
    Reads forInitializer 10 anything ts n (some first) n₁ := by
  refine Reads.intro (by decide) fun depth rest faults hd _ => ?_
  refine meets_forInitializer ?_ ?_ fun _ _ => ?_
  · exact fun token rest' hs hk =>
      absurd ⟨token, rest', hs, hk⟩ ((hbegins.append rest).not_starts (by decide))
  · exact fun token rest' hs hk =>
      absurd ⟨token, rest', hs, hk⟩ ((hbegins.append rest).not_starts (by decide))
  · exact h.meets hd trivial ⟨rfl, rfl⟩

theorem reads_noClause {symbol : Symbol} :
    Reads (optionalBefore · symbol) 10 (Token.Kind.symbol symbol).Starts [] n none n := by
  refine Reads.intro (by decide) fun depth rest faults _ hends => ?_
  exact meets_optionalBefore (fun _ => ⟨rfl, rfl⟩) fun hn => absurd hends hn

theorem reads_clause {symbol : Symbol} {e : Expr}
    (hsymbol : symbol = .semicolon ∨ symbol = .rightParen)
    (hbegins : Begins Token.Kind.startsExpression ts)
    (h : Reads assignment 10 EndsExpression ts n e n₁) :
    Reads (optionalBefore · symbol) 10 (Token.Kind.symbol symbol).Starts ts n (some e) n₁ := by
  refine Reads.intro (by decide) fun depth rest faults hd hends => ?_
  refine meets_optionalBefore (fun hnone => ?_) fun _ => h.meets hd ?_ ⟨rfl, rfl⟩
  · refine absurd hnone ((hbegins.append rest).not_starts ?_)
    rcases hsymbol with rfl | rfl <;> rfl
  · obtain ⟨token, others, rfl, hk⟩ := hends
    refine endsExpression_cons ?_
    rcases hsymbol with rfl | rfl <;> simp [hk]

/-! ### Names of functions and classes -/

theorem reads_lastParameter {param : Token} {count : Nat} (hcount : count < maxArity)
    (h : param.kind = .identifier) :
    Reads (parameters · count) 1 (Token.Kind.symbol .rightParen).Starts [param] n [param.name] n := by
  refine Reads.intro (by decide) fun depth rest faults _ hends => ?_
  obtain ⟨closing, others, rfl, hclosing⟩ := hends
  refine meets_parameters ?_
  rw [counted_of_lt hcount]
  refine meets_expectName_cons h ⟨?_, fun _ => ⟨rfl, rfl⟩⟩
  rintro _ _ ⟨⟩ hk
  simp [hclosing] at hk

theorem reads_moreParameters {param comma : Token} {names : List Name} {count : Nat}
    (hcount : count < maxArity) (h : param.kind = .identifier)
    (hcomma : comma.kind = .symbol .comma)
    (hmore : Reads (parameters · (count + 1)) 1 (Token.Kind.symbol .rightParen).Starts ts n names n) :
    Reads (parameters · count) 1 (Token.Kind.symbol .rightParen).Starts (param :: comma :: ts) n
      (param.name :: names) n := by
  refine Reads.intro (by decide) fun depth rest faults hd hends => ?_
  simp only [List.length_cons] at hd
  refine meets_parameters ?_
  rw [counted_of_lt hcount]
  refine meets_expectName_cons h ⟨?_, fun hlast => ?_⟩
  · rintro _ _ ⟨⟩ _
    exact hmore.meets (by omega) hends ⟨rfl, rfl⟩
  · exact absurd ⟨comma, _, rfl, hcomma⟩ hlast

theorem parameters_read {names : List Name} (h : Parameters ts names) (hne : names ≠ [])
    (count n : Nat) (hcount : count + names.length ≤ maxArity) :
    Reads (parameters · count) 1 (Token.Kind.symbol .rightParen).Starts ts n names n := by
  induction h generalizing count with
  | none => exact absurd rfl hne
  | last h =>
    rw [List.length_singleton] at hcount
    exact reads_lastParameter (by omega) h
  | @more param comma ts name names h hcomma hmore ih =>
    rw [List.length_cons] at hcount
    exact reads_moreParameters (by omega) h hcomma (ih (List.cons_ne_nil _ _) (count + 1) (by omega))

theorem parameterList_reads {names : List Name} (h : Parameters ts names)
    (hcount : names.length ≤ maxArity) :
    Reads parameterList 1 (Token.Kind.symbol .rightParen).Starts ts n names n := by
  refine Reads.intro (by decide) fun depth rest faults hd hends => ?_
  refine meets_parameterList (fun hnone => ?_) fun hsome => ?_
  · cases h with
    | none => exact ⟨rfl, rfl⟩
    | last hk | more hk =>
      exact absurd (Token.Kind.starts_cons.mp hnone) (by simp [hk])
  · by_cases hne : names = []
    · subst hne
      cases h
      exact absurd hends hsome
    · exact (parameters_read h hne 0 n (by omega)).meets hd hends ⟨rfl, rfl⟩

theorem reads_noSuperclass :
    Reads (fun _ => superclass) 1 (Token.Kind.symbol .leftBrace).Starts [] n none n := by
  refine Reads.intro (by decide) fun depth rest faults _ hends => ?_
  obtain ⟨brace, others, rfl, hbrace⟩ := hends
  refine meets_superclass ?_ fun _ => ⟨rfl, rfl⟩
  rintro _ _ ⟨⟩ hk
  simp [hbrace] at hk

theorem reads_superclass {less name : Token} (hless : less.kind = .symbol .less)
    (hname : name.kind = .identifier) :
    Reads (fun _ => superclass) 1 (Token.Kind.symbol .leftBrace).Starts [less, name] n
      (some ⟨n, name.name⟩) (n + 1) := by
  refine Reads.intro (by decide) fun depth rest faults _ _ => ?_
  refine meets_superclass ?_ fun hnone => absurd ⟨less, _, rfl, hless⟩ hnone
  rintro _ _ ⟨⟩ _
  exact meets_expectName_cons hname ⟨rfl, rfl⟩

/-! ### Bodies -/

theorem reads_block {body : List Stmt} {closing : Token}
    (h : Reads declarations 13 (Token.Kind.symbol .rightBrace).Starts ts n body n₁)
    (hclosing : closing.kind = .symbol .rightBrace) :
    Reads block 14 anything (ts ++ [closing]) n body n₁ := by
  refine Reads.intro (by decide) fun depth rest faults hd _ => ?_
  simp only [List.length_append, List.length_singleton] at hd
  simp only [List.append_assoc, List.singleton_append]
  refine meets_block (h.meets (by omega) ⟨closing, rest, rfl, hclosing⟩ ?_)
  exact meets_expectSymbol_cons hclosing ⟨rfl, rfl⟩

theorem reads_function {name opening closing brace : Token} {params : List Name}
    {body : List Stmt} {role : FunctionRole} (hname : name.kind = .identifier)
    (hopening : opening.kind = .symbol .leftParen)
    (hparams : Reads parameterList 1 (Token.Kind.symbol .rightParen).Starts us n params n)
    (hclosing : closing.kind = .symbol .rightParen) (hbrace : brace.kind = .symbol .leftBrace)
    (hbody : Reads block 14 anything ts n body n₁) :
    Reads (function · role) 1 anything (name :: opening :: (us ++ closing :: brace :: ts)) n
      ⟨name.name, params, body⟩ n₁ := by
  refine Reads.intro (by decide) fun depth rest faults hd _ => ?_
  simp only [List.length_cons, List.length_append] at hd
  simp only [List.cons_append, List.append_assoc]
  refine meets_function (meets_expectName_cons hname (meets_expectSymbol_cons hopening ?_))
  refine hparams.meets (by omega) ⟨closing, _, rfl, hclosing⟩ ?_
  refine meets_expectSymbol_cons hclosing (meets_expectSymbol_cons hbrace ?_)
  exact hbody.meets (by omega) trivial ⟨rfl, rfl⟩

theorem reads_noMethods : Reads methods 2 (Token.Kind.symbol .rightBrace).Starts [] n [] n := by
  refine Reads.intro (by decide) fun depth rest faults _ hends => ?_
  exact meets_methods (fun _ => ⟨rfl, rfl⟩) fun hmore => absurd (.inl hends) hmore

theorem reads_methods {f : FunctionDecl} {fs : List FunctionDecl}
    (hbegins : Begins (fun kind => kind = .identifier) ts)
    (h : Reads (function · .method) 1 anything ts n f n₁)
    (hrest : Reads methods 2 (Token.Kind.symbol .rightBrace).Starts us n₁ fs n₂) :
    Reads methods 2 (Token.Kind.symbol .rightBrace).Starts (ts ++ us) n (f :: fs) n₂ := by
  have hpos := hbegins.length_pos
  refine Reads.intro (by decide) fun depth rest faults hd hends => ?_
  rw [List.length_append] at hd
  rw [List.append_assoc]
  refine meets_methods (fun hend => ?_) fun _ => ?_
  · exact absurd hend ((hbegins.append _).not_bodyEnds (by decide) (by decide))
  · exact h.meets (by omega) trivial (hrest.meets (by omega) hends ⟨rfl, rfl⟩)

/-- An `else` would go on with an open statement. -/
def EndsStatement (isOpen : Bool) (rest : List Token) : Prop :=
  isOpen = true → ¬ (Token.Kind.keyword .else).Starts rest

theorem reads_noDeclarations :
    Reads declarations 13 (Token.Kind.symbol .rightBrace).Starts [] n [] n := by
  refine Reads.intro (by decide) fun depth rest faults _ hends => ?_
  exact meets_declarations (fun _ => ⟨rfl, rfl⟩) fun hmore => absurd (.inl hends) hmore

theorem reads_declarations {s : Stmt} {ss : List Stmt}
    (hbegins : Begins Token.Kind.startsDeclaration ts)
    (h : Reads declaration 12 (EndsStatement true) ts n (some s) n₁)
    (hbegins' : us = [] ∨ Begins Token.Kind.startsDeclaration us)
    (hrest : Reads declarations 13 (Token.Kind.symbol .rightBrace).Starts us n₁ ss n₂) :
    Reads declarations 13 (Token.Kind.symbol .rightBrace).Starts (ts ++ us) n (s :: ss) n₂ := by
  have hpos := hbegins.length_pos
  refine Reads.intro (by decide) fun depth rest faults hd hends => ?_
  rw [List.length_append] at hd
  rw [List.append_assoc]
  refine meets_declarations (fun hend => ?_) fun _ => ?_
  · exact absurd hend ((hbegins.append _).not_bodyEnds (by decide) (by decide))
  refine h.meets (by omega) (fun _ => ?_) (hrest.meets (by omega) hends ⟨rfl, rfl⟩)
  rcases hbegins' with rfl | hbegins'
  · obtain ⟨brace, others, rfl, hbrace⟩ := hends
    rw [List.nil_append, Token.Kind.starts_cons, hbrace]
    simp
  · exact (hbegins'.append _).not_starts (by decide)

/-! ### Statements -/

theorem reads_expression {s : Stmt} (hbegins : Begins Token.Kind.startsExpression ts)
    (h : Reads expressionStatement 10 anything ts n s n₁) :
    Reads statement 11 (EndsStatement false) ts n s n₁ := by
  refine Reads.intro (by decide) fun depth rest faults hd _ => ?_
  refine meets_statement ?print ?body ?ifElse ?whileLoop ?forLoop ?leave ?expression
  case expression => exact fun _ => h.meets (by omega) trivial ⟨rfl, rfl⟩
  all_goals
    intro token rest' hs hk
    have hstarts : token.kind.Starts (ts ++ rest) := ⟨token, rest', hs, rfl⟩
    refine absurd hstarts ((hbegins.append rest).not_starts ?_)
    rw [hk]
    rfl

theorem reads_print {word : Token} {s : Stmt} (hword : word.kind = .keyword .print)
    (h : Reads printStatement 10 anything ts n s n₁) :
    Reads statement 11 (EndsStatement false) (word :: ts) n s n₁ := by
  refine Reads.intro (by decide) fun depth rest faults hd _ => ?_
  rw [List.length_cons] at hd
  refine meets_statement ?print ?body ?ifElse ?whileLoop ?forLoop ?leave ?expression
  case print =>
    rintro _ _ ⟨⟩ _
    exact h.meets (by omega) trivial ⟨rfl, rfl⟩
  case expression =>
    intro hnone
    simpa [hword, Token.Kind.opensStatement] using hnone word _ rfl
  all_goals
    rintro _ _ ⟨⟩ hk
    simp [hword] at hk

theorem reads_return {word : Token} {s : Stmt} (hword : word.kind = .keyword .return)
    (h : Reads (returnStatement · word.line) 10 anything ts n s n₁) :
    Reads statement 11 (EndsStatement false) (word :: ts) n s n₁ := by
  refine Reads.intro (by decide) fun depth rest faults hd _ => ?_
  rw [List.length_cons] at hd
  refine meets_statement ?print ?body ?ifElse ?whileLoop ?forLoop ?leave ?expression
  case leave =>
    rintro _ _ ⟨⟩ _
    exact h.meets (by omega) trivial ⟨rfl, rfl⟩
  case expression =>
    intro hnone
    simpa [hword, Token.Kind.opensStatement] using hnone word _ rfl
  all_goals
    rintro _ _ ⟨⟩ hk
    simp [hword] at hk

theorem reads_blockStatement {opening : Token} {body : List Stmt}
    (hopening : opening.kind = .symbol .leftBrace) (h : Reads block 14 anything ts n body n₁) :
    Reads statement 11 (EndsStatement false) (opening :: ts) n (.block body) n₁ := by
  refine Reads.intro (by decide) fun depth rest faults hd _ => ?_
  rw [List.length_cons] at hd
  refine meets_statement ?print ?body ?ifElse ?whileLoop ?forLoop ?leave ?expression
  case body =>
    rintro _ _ ⟨⟩ _
    exact h.meets (by omega) trivial ⟨rfl, rfl⟩
  case expression =>
    intro hnone
    simpa [hopening, Token.Kind.opensStatement] using hnone opening _ rfl
  all_goals
    rintro _ _ ⟨⟩ hk
    simp [hopening] at hk

section

variable {cs : List Token} {word opening closing : Token} {condition : Expr} {isOpen : Bool}

theorem reads_ifThen {thenBranch : Stmt} (hword : word.kind = .keyword .if)
    (hopening : opening.kind = .symbol .leftParen)
    (hcondition : Reads assignment 10 EndsExpression cs n condition n₁)
    (hclosing : closing.kind = .symbol .rightParen)
    (hthen : Reads statement 11 (EndsStatement isOpen) ts n₁ thenBranch n₂) :
    Reads statement 11 (EndsStatement true) (word :: opening :: (cs ++ closing :: ts)) n
      (.ifElse condition thenBranch none) n₂ := by
  refine Reads.intro (by decide) fun depth rest faults hd hends => ?_
  simp only [List.length_cons, List.length_append] at hd
  simp only [List.cons_append, List.append_assoc]
  refine meets_statement ?print ?body ?ifElse ?whileLoop ?forLoop ?leave ?expression
  case ifElse =>
    rintro _ _ ⟨⟩ _
    refine meets_expectSymbol_cons hopening (hcondition.meets (by omega) ?_ ?_)
    · exact endsExpression_cons (by simp [hclosing])
    refine meets_expectSymbol_cons hclosing ?_
    refine hthen.meets (by omega) (fun _ => hends rfl) ⟨?_, fun _ => ⟨rfl, rfl⟩⟩
    exact fun other rest' hs hk => absurd ⟨other, rest', hs, hk⟩ (hends rfl)
  case expression =>
    intro hnone
    simpa [hword, Token.Kind.opensStatement] using hnone word _ rfl
  all_goals
    rintro _ _ ⟨⟩ hk
    simp [hword] at hk

theorem reads_ifElse {other : Token} {thenBranch elseBranch : Stmt}
    (hword : word.kind = .keyword .if) (hopening : opening.kind = .symbol .leftParen)
    (hcondition : Reads assignment 10 EndsExpression cs n condition n₁)
    (hclosing : closing.kind = .symbol .rightParen)
    (hthen : Reads statement 11 (EndsStatement false) ts n₁ thenBranch n₂)
    (hother : other.kind = .keyword .else)
    (helse : Reads statement 11 (EndsStatement isOpen) us n₂ elseBranch n₃) :
    Reads statement 11 (EndsStatement isOpen)
      (word :: opening :: (cs ++ closing :: (ts ++ other :: us))) n
      (.ifElse condition thenBranch (some elseBranch)) n₃ := by
  refine Reads.intro (by decide) fun depth rest faults hd hends => ?_
  simp only [List.length_cons, List.length_append] at hd
  simp only [List.cons_append, List.append_assoc]
  refine meets_statement ?print ?body ?ifElse ?whileLoop ?forLoop ?leave ?expression
  case ifElse =>
    rintro _ _ ⟨⟩ _
    refine meets_expectSymbol_cons hopening (hcondition.meets (by omega) ?_ ?_)
    · exact endsExpression_cons (by simp [hclosing])
    refine meets_expectSymbol_cons hclosing (hthen.meets (by omega) nofun ⟨?_, fun hn => ?_⟩)
    · rintro _ _ ⟨⟩ _
      exact helse.meets (by omega) hends ⟨rfl, rfl⟩
    · exact absurd ⟨other, _, rfl, hother⟩ hn
  case expression =>
    intro hnone
    simpa [hword, Token.Kind.opensStatement] using hnone word _ rfl
  all_goals
    rintro _ _ ⟨⟩ hk
    simp [hword] at hk

theorem reads_whileLoop {body : Stmt} (hword : word.kind = .keyword .while)
    (hopening : opening.kind = .symbol .leftParen)
    (hcondition : Reads assignment 10 EndsExpression cs n condition n₁)
    (hclosing : closing.kind = .symbol .rightParen)
    (hbody : Reads statement 11 (EndsStatement isOpen) ts n₁ body n₂) :
    Reads statement 11 (EndsStatement isOpen) (word :: opening :: (cs ++ closing :: ts)) n
      (.whileLoop condition body) n₂ := by
  refine Reads.intro (by decide) fun depth rest faults hd hends => ?_
  simp only [List.length_cons, List.length_append] at hd
  simp only [List.cons_append, List.append_assoc]
  refine meets_statement ?print ?body ?ifElse ?whileLoop ?forLoop ?leave ?expression
  case whileLoop =>
    rintro _ _ ⟨⟩ _
    refine meets_expectSymbol_cons hopening (hcondition.meets (by omega) ?_ ?_)
    · exact endsExpression_cons (by simp [hclosing])
    exact meets_expectSymbol_cons hclosing (hbody.meets (by omega) hends ⟨rfl, rfl⟩)
  case expression =>
    intro hnone
    simpa [hword, Token.Kind.opensStatement] using hnone word _ rfl
  all_goals
    rintro _ _ ⟨⟩ hk
    simp [hword] at hk

theorem reads_forLoop {semicolon : Token} {is ns : List Token} {initializer : Option Stmt}
    {condition increment : Option Expr} {body : Stmt} {n₄ : Nat}
    (hword : word.kind = .keyword .for) (hopening : opening.kind = .symbol .leftParen)
    (hinitializer : Reads forInitializer 10 anything is n initializer n₁)
    (hcondition : Reads (optionalBefore · .semicolon) 10 (Token.Kind.symbol .semicolon).Starts cs
      n₁ condition n₂)
    (hsemicolon : semicolon.kind = .symbol .semicolon)
    (hincrement : Reads (optionalBefore · .rightParen) 10 (Token.Kind.symbol .rightParen).Starts ns
      n₂ increment n₃)
    (hclosing : closing.kind = .symbol .rightParen)
    (hbody : Reads statement 11 (EndsStatement isOpen) ts n₃ body n₄) :
    Reads statement 11 (EndsStatement isOpen)
      (word :: opening :: (is ++ (cs ++ semicolon :: (ns ++ closing :: ts)))) n
      (Stmt.forLoop initializer condition increment body) n₄ := by
  refine Reads.intro (by decide) fun depth rest faults hd hends => ?_
  simp only [List.length_cons, List.length_append] at hd
  simp only [List.cons_append, List.append_assoc]
  refine meets_statement ?print ?body ?ifElse ?whileLoop ?forLoop ?leave ?expression
  case forLoop =>
    rintro _ _ ⟨⟩ _
    refine meets_expectSymbol_cons hopening (hinitializer.meets (by omega) trivial ?_)
    refine hcondition.meets (by omega) ⟨semicolon, _, rfl, hsemicolon⟩ ?_
    refine meets_expectSymbol_cons hsemicolon ?_
    refine hincrement.meets (by omega) ⟨closing, _, rfl, hclosing⟩ ?_
    exact meets_expectSymbol_cons hclosing (hbody.meets (by omega) hends ⟨rfl, rfl⟩)
  case expression =>
    intro hnone
    simpa [hword, Token.Kind.opensStatement] using hnone word _ rfl
  all_goals
    rintro _ _ ⟨⟩ hk
    simp [hword] at hk

end

/-! ### Declarations -/

theorem reads_class {word name opening closing : Token} {parent : Option Reference}
    {methods : List FunctionDecl} (hword : word.kind = .keyword .cls)
    (hname : name.kind = .identifier)
    (hparent : Reads (fun _ => superclass) 1 (Token.Kind.symbol .leftBrace).Starts us n parent n₁)
    (hopening : opening.kind = .symbol .leftBrace)
    (hmethods : Reads Reader.methods 2 (Token.Kind.symbol .rightBrace).Starts ts n₁ methods n₂)
    (hclosing : closing.kind = .symbol .rightBrace) :
    Reads declaration 12 (EndsStatement true)
      (word :: name :: (us ++ opening :: (ts ++ [closing]))) n
      (some (.classDecl ⟨name.name, parent, methods⟩)) n₂ := by
  refine Reads.intro (by decide) fun depth rest faults hd _ => ?_
  simp only [List.length_cons, List.length_append, List.length_nil] at hd
  simp only [List.cons_append, List.append_assoc, List.nil_append]
  refine meets_declaration (F := fun _ _ => False) ?_ ?_ ?_ ?_ nofun nofun
  · rintro _ _ ⟨⟩ _
    refine meets_expectName_cons hname ?_
    have hdepth : 16 * us.length + 1 ≤ depth := by omega
    refine hparent.meets hdepth ⟨opening, _, rfl, hopening⟩ ?_
    refine meets_expectSymbol_cons hopening ?_
    refine hmethods.meets (by omega) ⟨closing, _, rfl, hclosing⟩ ?_
    exact meets_expectSymbol_cons hclosing ⟨rfl, rfl⟩
  · rintro _ _ ⟨⟩ hk
    simp [hword] at hk
  · rintro _ _ ⟨⟩ hk
    simp [hword] at hk
  · exact fun hcls => absurd ⟨word, _, rfl, hword⟩ hcls

theorem reads_functionDeclaration {word : Token} {f : FunctionDecl}
    (hword : word.kind = .keyword .fun) (h : Reads (function · .function) 1 anything ts n f n₁) :
    Reads declaration 12 (EndsStatement true) (word :: ts) n (some (.funDecl f)) n₁ := by
  refine Reads.intro (by decide) fun depth rest faults hd _ => ?_
  rw [List.length_cons] at hd
  refine meets_declaration (F := fun _ _ => False) ?_ ?_ ?_ ?_ nofun nofun
  · rintro _ _ ⟨⟩ hk
    simp [hword] at hk
  · rintro _ _ ⟨⟩ _
    exact h.meets (by omega) trivial ⟨rfl, rfl⟩
  · rintro _ _ ⟨⟩ hk
    simp [hword] at hk
  · exact fun _ hfun => absurd ⟨word, _, rfl, hword⟩ hfun

theorem reads_varDeclaration {word : Token} {s : Stmt} (hword : word.kind = .keyword .var)
    (h : Reads varDeclaration 10 anything ts n s n₁) :
    Reads declaration 12 (EndsStatement true) (word :: ts) n (some s) n₁ := by
  refine Reads.intro (by decide) fun depth rest faults hd _ => ?_
  rw [List.length_cons] at hd
  refine meets_declaration (F := fun _ _ => False) ?_ ?_ ?_ ?_ nofun nofun
  · rintro _ _ ⟨⟩ hk
    simp [hword] at hk
  · rintro _ _ ⟨⟩ hk
    simp [hword] at hk
  · rintro _ _ ⟨⟩ _
    exact h.meets (by omega) trivial ⟨rfl, rfl⟩
  · exact fun _ _ hvar => absurd ⟨word, _, rfl, hword⟩ hvar

theorem reads_statement {isOpen : Bool} {s : Stmt}
    (hbegins : Begins (fun kind => kind.startsExpression || kind.opensStatement) ts)
    (h : Reads statement 11 (EndsStatement isOpen) ts n s n₁) :
    Reads declaration 12 (EndsStatement true) ts n (some s) n₁ := by
  refine Reads.intro (by decide) fun depth rest faults hd hends => ?_
  have hnot : ∀ keyword : Keyword, keyword ∈ [.cls, .fun, .var] →
      ¬ (Token.Kind.keyword keyword).Starts (ts ++ rest) := by
    intro keyword hmem
    refine (hbegins.append rest).not_starts ?_
    simp only [List.mem_cons, List.not_mem_nil, or_false] at hmem
    rcases hmem with rfl | rfl | rfl <;> rfl
  refine meets_declaration (F := fun _ _ => False) ?_ ?_ ?_ (fun _ _ _ => ?_) nofun nofun
  · exact fun token rest' hs hk => absurd ⟨token, rest', hs, hk⟩ (hnot .cls (by simp))
  · exact fun token rest' hs hk => absurd ⟨token, rest', hs, hk⟩ (hnot .fun (by simp))
  · exact fun token rest' hs hk => absurd ⟨token, rest', hs, hk⟩ (hnot .var (by simp))
  · exact h.meets (by omega) (fun _ => hends rfl) ⟨rfl, rfl⟩

/-! ### All phrases -/

theorem expressionStatement_readable {s : Stmt} (h : ExpressionStatement ts s) :
    Readable expressionStatement 10 anything (Stmt.relabel .anonymous) ts s := by
  intro n
  obtain ⟨h, hsemicolon⟩ := h
  obtain ⟨value', n', hsame, hreads⟩ := assignment_readable h n
  refine ⟨_, n', ?_, reads_expressionStatement hreads hsemicolon⟩
  rw [Stmt.relabel, Stmt.relabel, hsame]

theorem variable_readable {s : Stmt} (h : Variable ts s) :
    Readable varDeclaration 10 anything (Stmt.relabel .anonymous) ts s := by
  intro n
  cases h with
  | bare hname hsemicolon => exact ⟨_, n, rfl, reads_bareVariable hname hsemicolon⟩
  | withValue hname hequal h hsemicolon =>
    obtain ⟨value', n', hsame, hreads⟩ := assignment_readable h n
    refine ⟨_, n', ?_, reads_variable hname hequal hreads hsemicolon⟩
    rw [Stmt.relabel, Stmt.relabel, hsame]

theorem initializer_readable {initializer : Option Stmt} (h : Initializer ts initializer) :
    Readable forInitializer 10 anything (Option.map (Stmt.relabel .anonymous)) ts initializer := by
  intro n
  cases h with
  | none h => exact ⟨none, n, rfl, reads_noInitializer h⟩
  | varDecl hword h =>
    obtain ⟨first', n', hsame, hreads⟩ := variable_readable h n
    refine ⟨_, n', ?_, reads_varInitializer hword hreads⟩
    rw [Option.map_some, Option.map_some, hsame]
  | expression h =>
    obtain ⟨first', n', hsame, hreads⟩ := expressionStatement_readable h n
    refine ⟨_, n', ?_, reads_expressionInitializer (expressionStatement_begins h) hreads⟩
    rw [Option.map_some, Option.map_some, hsame]

theorem optional_readable {clause : Option Expr} (h : Grammar.Optional ts clause) {symbol : Symbol}
    (hsymbol : symbol = .semicolon ∨ symbol = .rightParen) :
    Readable (optionalBefore · symbol) 10 (Token.Kind.symbol symbol).Starts
      (Option.map (Expr.relabel .anonymous)) ts clause := by
  intro n
  cases h with
  | none => exact ⟨none, n, rfl, reads_noClause⟩
  | some h =>
    obtain ⟨e', n', hsame, hreads⟩ := assignment_readable h n
    refine ⟨_, n', ?_, reads_clause hsymbol (assignment_begins h) hreads⟩
    rw [Option.map_some, Option.map_some, hsame]

theorem superclass_readable {parent : Option Reference} (h : Superclass ts parent) :
    Readable (fun _ => superclass) 1 (Token.Kind.symbol .leftBrace).Starts
      (Option.map (Reference.relabel .anonymous)) ts parent := by
  intro n
  cases h with
  | none => exact ⟨none, n, rfl, reads_noSuperclass⟩
  | some hless hname => exact ⟨some ⟨n, _⟩, _, rfl, reads_superclass hless hname⟩

mutual

theorem statement_readable : ∀ {isOpen : Bool} {ts : List Token} {s : Stmt},
    Statement isOpen ts s →
    Readable statement 11 (EndsStatement isOpen) (Stmt.relabel .anonymous) ts s
  | _, _, _, .expression h => fun n => by
    obtain ⟨s', n', hsame, hreads⟩ := expressionStatement_readable h n
    exact ⟨s', n', hsame, reads_expression (expressionStatement_begins h) hreads⟩
  | _, _, _, .print hword h hsemicolon => fun n => by
    obtain ⟨value', n', hsame, hreads⟩ := assignment_readable h n
    refine ⟨_, n', ?_, reads_print hword (reads_printStatement hreads hsemicolon)⟩
    rw [Stmt.relabel, Stmt.relabel, hsame]
  | _, _, _, .returnNothing hword hsemicolon => fun n =>
    ⟨_, n, rfl, reads_return hword (reads_returnNothing hsemicolon)⟩
  | _, _, _, .returnValue hword h hsemicolon => fun n => by
    obtain ⟨value', n', hsame, hreads⟩ := assignment_readable h n
    refine ⟨_, n', ?_, reads_return hword (reads_returnValue (assignment_begins h) hreads hsemicolon)⟩
    rw [Stmt.relabel, Stmt.relabel, hsame]
  | _, _, _, .block hopening h hclosing => fun n => by
    obtain ⟨body', n', hsame, hreads⟩ := declarations_readable h n
    refine ⟨_, n', ?_, reads_blockStatement hopening (reads_block hreads hclosing)⟩
    rw [Stmt.relabel, Stmt.relabel, hsame]
  | _, _, _, .ifThen hword hopening hcondition hclosing hthen => fun n => by
    obtain ⟨condition', n₁, hsame, hreads⟩ := assignment_readable hcondition n
    obtain ⟨then', n', hsame', hreads'⟩ := statement_readable hthen n₁
    refine ⟨_, n', ?_, reads_ifThen hword hopening hreads hclosing hreads'⟩
    rw [Stmt.relabel, Stmt.relabel, hsame, hsame']
  | _, _, _, .ifElse hword hopening hcondition hclosing hthen hother helse => fun n => by
    obtain ⟨condition', n₁, hsame, hreads⟩ := assignment_readable hcondition n
    obtain ⟨then', n₂, hsame', hreads'⟩ := statement_readable hthen n₁
    obtain ⟨else', n', hsame'', hreads''⟩ := statement_readable helse n₂
    refine ⟨_, n', ?_, reads_ifElse hword hopening hreads hclosing hreads' hother hreads''⟩
    rw [Stmt.relabel, Stmt.relabel, hsame, hsame', hsame'']
  | _, _, _, .whileLoop hword hopening hcondition hclosing hbody => fun n => by
    obtain ⟨condition', n₁, hsame, hreads⟩ := assignment_readable hcondition n
    obtain ⟨body', n', hsame', hreads'⟩ := statement_readable hbody n₁
    refine ⟨_, n', ?_, reads_whileLoop hword hopening hreads hclosing hreads'⟩
    rw [Stmt.relabel, Stmt.relabel, hsame, hsame']
  | _, _, _, .forLoop hword hopening hinitializer hcondition hsemicolon hincrement hclosing
      hbody htree => fun n => by
    obtain rfl := forTree_iff.mp htree
    obtain ⟨initializer', n₁, hi, hreads₁⟩ := initializer_readable hinitializer n
    obtain ⟨condition', n₂, hc, hreads₂⟩ := optional_readable hcondition (.inl rfl) n₁
    obtain ⟨increment', n₃, hn, hreads₃⟩ := optional_readable hincrement (.inr rfl) n₂
    obtain ⟨body', n', hb, hreads₄⟩ := statement_readable hbody n₃
    refine ⟨_, n', ?_, reads_forLoop hword hopening hreads₁ hreads₂ hsemicolon hreads₃ hclosing
      hreads₄⟩
    rw [Stmt.forLoop_relabel, Stmt.forLoop_relabel, hi, hc, hn, hb]

theorem declaration_readable : ∀ {ts : List Token} {s : Stmt}, Declaration ts s →
    Readable declaration 12 (EndsStatement true) (Option.map (Stmt.relabel .anonymous)) ts (some s)
  | _, _, .cls hword hname hparent hopening hmethods hclosing => fun n => by
    obtain ⟨parent', n₁, hsame, hreads⟩ := superclass_readable hparent n
    obtain ⟨methods', n', hsame', hreads'⟩ := methods_readable hmethods n₁
    refine ⟨_, n', ?_, reads_class hword hname hreads hopening hreads' hclosing⟩
    simp only [Option.map_some, Stmt.relabel, ClassDecl.relabel, hsame, hsame']
  | _, _, .function hword h => fun n => by
    obtain ⟨f', n', hsame, hreads⟩ := function_readable h .function n
    refine ⟨_, n', ?_, reads_functionDeclaration hword hreads⟩
    simp only [Option.map_some, Stmt.relabel, hsame]
  | _, _, .varDecl hword h => fun n => by
    obtain ⟨s', n', hsame, hreads⟩ := variable_readable h n
    refine ⟨_, n', ?_, reads_varDeclaration hword hreads⟩
    rw [Option.map_some, Option.map_some, hsame]
  | _, _, .statement h => fun n => by
    obtain ⟨s', n', hsame, hreads⟩ := statement_readable h n
    refine ⟨_, n', ?_, reads_statement (statement_begins h) hreads⟩
    rw [Option.map_some, Option.map_some, hsame]

theorem declarations_readable : ∀ {ts : List Token} {ss : List Stmt}, Declarations ts ss →
    Readable declarations 13 (Token.Kind.symbol .rightBrace).Starts (Stmt.relabelEach .anonymous)
      ts ss
  | _, _, .nil => fun n => ⟨_, n, rfl, reads_noDeclarations⟩
  | _, _, .cons h hrest => fun n => by
    obtain ⟨s', n₁, hsame, hreads⟩ := declaration_readable h n
    obtain ⟨ss', n', hsame', hreads'⟩ := declarations_readable hrest n₁
    obtain ⟨s', rfl, hs⟩ := Option.map_eq_some_iff.mp hsame
    refine ⟨_, n', ?_, reads_declarations (declaration_begins h) hreads
      (declarations_begins hrest) hreads'⟩
    rw [Stmt.relabelEach, Stmt.relabelEach, hs, hsame']

theorem function_readable : ∀ {ts : List Token} {f : FunctionDecl}, Function ts f →
    ∀ role, Readable (function · role) 1 anything (FunctionDecl.relabel .anonymous) ts f
  | _, _, .intro hname hopening hparams hcount hclosing hbrace hbody hclosing' => fun role n => by
    obtain ⟨body', n', hsame, hreads⟩ := declarations_readable hbody n
    refine ⟨_, n', ?_, reads_function hname hopening (parameterList_reads hparams hcount) hclosing
      hbrace (reads_block hreads hclosing')⟩
    rw [FunctionDecl.relabel, FunctionDecl.relabel, hsame]

theorem methods_readable : ∀ {ts : List Token} {fs : List FunctionDecl}, Methods ts fs →
    Readable methods 2 (Token.Kind.symbol .rightBrace).Starts (FunctionDecl.relabelEach .anonymous)
      ts fs
  | _, _, .nil => fun n => ⟨_, n, rfl, reads_noMethods⟩
  | _, _, .cons h hrest => fun n => by
    obtain ⟨f', n₁, hsame, hreads⟩ := function_readable h .method n
    obtain ⟨fs', n', hsame', hreads'⟩ := methods_readable hrest n₁
    refine ⟨_, n', ?_, reads_methods (function_begins h) hreads hreads'⟩
    rw [FunctionDecl.relabelEach, FunctionDecl.relabelEach, hsame, hsame']

end

/-! ### Programs -/

/-- Reading a program comes to reading the rest after these declarations. -/
def Runs (ts : List Token) (n : Nat) (p : Program) (n' : Nat) : Prop :=
  p.length ≤ ts.length ∧ ∀ depth rest faults, 16 * ts.length + 13 ≤ depth + p.length →
    EndsStatement true rest → ∀ Q E,
      (program depth).Meets ⟨rest, n', faults⟩ (fun others s => Q (p ++ others) s) E →
        (program (depth + p.length)).Meets ⟨ts ++ rest, n, faults⟩ Q E

theorem runs_nil : Runs [] n [] n :=
  ⟨Nat.le_refl _, fun _ _ _ _ _ _ _ h => h⟩

theorem Reads.runs {s : Stmt} (hbegins : Begins Token.Kind.startsDeclaration ts)
    (h : Reads declaration 12 (EndsStatement true) ts n (some s) n₁) : Runs ts n [s] n₁ := by
  refine ⟨hbegins.length_pos, fun depth rest faults hd hends Q E hrest => ?_⟩
  rw [List.length_singleton] at hd
  refine meets_program (fun hend => ?_) fun _ => h.meets (by omega) hends hrest
  exact absurd (.inr hend) ((hbegins.append rest).not_bodyEnds (by decide) (by decide))

theorem Runs.append {p q : Program} (h : Runs ts n p n₁) (h' : Runs us n₁ q n₂)
    (hus : us = [] ∨ Begins Token.Kind.startsDeclaration us) : Runs (ts ++ us) n (p ++ q) n₂ := by
  obtain ⟨hle, hruns⟩ := h
  obtain ⟨hle', hruns'⟩ := h'
  rw [Runs, List.length_append, List.length_append]
  refine ⟨by omega, fun depth rest faults hd hends Q E hrest => ?_⟩
  rw [Nat.add_comm p.length, ← Nat.add_assoc, List.append_assoc]
  refine hruns (depth + q.length) (us ++ rest) faults (by omega) ?_ Q E ?_
  · rcases hus with rfl | hus
    · exact hends
    · exact fun _ => (hus.append _).not_starts (by decide)
  · refine hruns' depth rest faults (by omega) hends _ E ?_
    simpa only [List.append_assoc] using hrest

/-- The declarations of a program are read one by one. -/
theorem declarations_run_cons {ts us : List Token} {s : Stmt} {ss : List Stmt}
    (h : Declaration ts s) (hrest : Declarations us ss) (n : Nat)
    (hruns : ∀ n, ∃ p n', Program.relabel .anonymous p = Program.relabel .anonymous ss ∧
      Runs us n p n') :
    ∃ p n', Program.relabel .anonymous p = Program.relabel .anonymous (s :: ss) ∧
      Runs (ts ++ us) n p n' := by
  obtain ⟨s', n₁, hsame, hreads⟩ := declaration_readable h n
  obtain ⟨p, n', hsame', hruns⟩ := hruns n₁
  obtain ⟨s', rfl, hs⟩ := Option.map_eq_some_iff.mp hsame
  refine ⟨s' :: p, n', ?_, (hreads.runs (declaration_begins h)).append hruns
    (declarations_begins hrest)⟩
  rw [Program.relabel, Program.relabel, Stmt.relabelEach, Stmt.relabelEach, hs]
  exact congrArg _ hsame'

theorem declarations_run : ∀ {ts : List Token} {ss : List Stmt}, Declarations ts ss →
    ∀ n, ∃ p n', Program.relabel .anonymous p = Program.relabel .anonymous ss ∧ Runs ts n p n'
  | _, _, .nil => fun n => ⟨[], n, rfl, runs_nil⟩
  | _, _, .cons h hrest => fun n => declarations_run_cons h hrest n (declarations_run hrest)

/-- At the end of the tokens nothing else is read. -/
theorem Runs.program_eq {p : Program} (h : Runs ts n p n₁) {depth : Nat} {rest : List Token}
    {faults : List SyntaxFault} (hd : 16 * ts.length + 13 ≤ depth) (hend : AtEnd rest) :
    program depth ⟨ts ++ rest, n, faults⟩ = .ok p ⟨rest, n₁, faults⟩ := by
  obtain ⟨hle, hruns⟩ := h
  obtain ⟨depth, rfl⟩ := Nat.exists_eq_add_of_le (m := p.length + 1) (n := depth) (by omega)
  rw [show p.length + 1 + depth = depth + 1 + p.length by omega]
  refine (hruns (depth + 1) rest faults (by omega) ?_ _ _ ?_).eq_ok
  · rintro _ ⟨token, others, rfl, hk⟩
    rcases hend with hnil | hend
    · cases hnil
    · rw [Token.Kind.starts_cons, hk] at hend
      cases hend
  · exact meets_program (fun _ => ⟨List.append_nil p, rfl⟩) fun hmore => absurd hend hmore

end Lox.Reader
