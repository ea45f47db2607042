/-
The first token of a phrase and the token after it.

The grammar needs one token of lookahead: the first token of a phrase says by which
rule it was made, and a phrase goes on exactly when the token after it says so.

* `Grammar.Begins p ts` — `ts` starts with a token whose kind satisfies `p`;
* `primary_begins` ... `declaration_begins` — what the phrases start with;
* `EndsOperand tiers rest`, `EndsExpression rest` — `rest` does not go on with an
  expression that was read before it.
-/
import Lox.Proofs.Reading.Grammar
import Lox.Proofs.Reading.StatementRules

namespace Lox

/-- Does an expression start with a token of this kind? -/
def Token.Kind.startsExpression (kind : Token.Kind) : Bool :=
  kind.startsPrimary || (UnaryOp.ofKind? kind).isSome

/-- Does a declaration or statement start with a token of this kind? -/
def Token.Kind.startsDeclaration (kind : Token.Kind) : Bool :=
  kind.startsExpression || kind.opensStatement || kind ∈ [.keyword .cls, .keyword .fun, .keyword .var]

/-- An operator is no primary expression. -/
theorem UnaryOp.ofKind?_of_startsPrimary {kind : Token.Kind} (h : kind.startsPrimary = true) :
    UnaryOp.ofKind? kind = none := by
  cases kind with
  | symbol symbol => cases symbol <;> first | rfl | exact absurd h (by decide)
  | _ => rfl

namespace Grammar

/-- The tokens start with one whose kind satisfies `p`. -/
def Begins (p : Token.Kind → Bool) (ts : List Token) : Prop :=
  ∃ token rest, ts = token :: rest ∧ p token.kind = true

variable {p : Token.Kind → Bool} {ts us : List Token}

theorem begins_cons {token : Token} (h : p token.kind = true) : Begins p (token :: ts) :=
  ⟨token, ts, rfl, h⟩

theorem Begins.append (h : Begins p ts) (us : List Token) : Begins p (ts ++ us) := by
  obtain ⟨token, rest, rfl, hp⟩ := h
  exact ⟨token, rest ++ us, rfl, hp⟩

theorem Begins.mono {q : Token.Kind → Bool} (h : Begins p ts)
    (hpq : ∀ kind, p kind = true → q kind = true) : Begins q ts := by
  obtain ⟨token, rest, rfl, hp⟩ := h
  exact ⟨token, rest, rfl, hpq _ hp⟩

theorem Begins.not_starts {kind : Token.Kind} (h : Begins p ts) (hk : p kind = false) :
    ¬ kind.Starts ts := by
  obtain ⟨token, rest, rfl, hp⟩ := h
  rw [Token.Kind.starts_cons]
  rintro rfl
  exact absurd hp (by rw [hk]; decide)

theorem Begins.length_pos (h : Begins p ts) : 0 < ts.length := by
  obtain ⟨token, rest, rfl, -⟩ := h
  exact Nat.succ_pos _

theorem Begins.not_bodyEnds (h : Begins p ts)
    (hbrace : p (.symbol .rightBrace) = false) (hend : p .endOfFile = false) :
    ¬ Reader.BodyEnds ts := by
  rintro (hb | hnil | he)
  · exact h.not_starts hbrace hb
  · exact absurd h.length_pos (by simp [hnil])
  · exact h.not_starts hend he

/-! ### Expressions -/

theorem primary_begins {e : Expr} (h : Primary ts e) : Begins Token.Kind.startsPrimary ts := by
  cases h with
  | literal h => exact begins_cons (by simp [Token.Kind.startsPrimary, constant_iff.mp h])
  | name h => exact begins_cons (by rw [h]; rfl)
  | this h => exact begins_cons (by rw [h]; rfl)
  | super h hdot hname => exact begins_cons (by rw [h]; rfl)
  | grouping hopening h hclosing => exact begins_cons (by rw [hopening]; rfl)

theorem call_begins : ∀ {ts : List Token} {e : Expr}, Call ts e →
    Begins Token.Kind.startsPrimary ts
  | _, _, .primary h => primary_begins h
  | _, _, .call hcallee _ _ _ _ => (call_begins hcallee).append _
  | _, _, .property hobject _ _ => (call_begins hobject).append _

theorem Begins.startsExpression (h : Begins Token.Kind.startsPrimary ts) :
    Begins Token.Kind.startsExpression ts :=
  h.mono fun kind hk => by rw [Token.Kind.startsExpression, hk, Bool.true_or]

theorem unary_begins {e : Expr} (h : Unary ts e) : Begins Token.Kind.startsExpression ts := by
  cases h with
  | operator hop h => exact begins_cons (by simp [Token.Kind.startsExpression, sign_iff.mp hop])
  | call h => exact (call_begins h).startsExpression

theorem operand_begins : ∀ {levels : List Level} {ts : List Token} {e : Expr},
    Operand levels ts e → Begins Token.Kind.startsExpression ts
  | _, _, _, .unary h => unary_begins h
  | _, _, _, .tighter h => operand_begins h
  | _, _, _, .join hleft _ _ => (operand_begins hleft).append _

theorem assignment_begins {e : Expr} (h : Assignment ts e) :
    Begins Token.Kind.startsExpression ts := by
  cases h with
  | operand h => exact operand_begins h
  | toVariable hname hequal hvalue => exact begins_cons (by rw [hname]; rfl)
  | toProperty hobject hdot hname hequal hvalue =>
    exact ((call_begins hobject).append _).startsExpression

theorem arguments_begins {es : List Expr} (h : Arguments ts es) :
    ts = [] ∧ es = [] ∨ Begins Token.Kind.startsExpression ts ∧ es ≠ [] := by
  cases h with
  | none => exact .inl ⟨rfl, rfl⟩
  | last h => exact .inr ⟨assignment_begins h, by simp⟩
  | more h hcomma hmore => exact .inr ⟨(assignment_begins h).append _, by simp⟩

/-! ### Declarations -/

theorem expressionStatement_begins {s : Stmt} (h : ExpressionStatement ts s) :
    Begins Token.Kind.startsExpression ts := by
  obtain ⟨h, -⟩ := h
  exact (assignment_begins h).append _

/-- What a statement starts with that is no declaration. -/
theorem statement_begins {isOpen : Bool} {s : Stmt} (h : Statement isOpen ts s) :
    Begins (fun kind => kind.startsExpression || kind.opensStatement) ts := by
  cases h with
  | expression h => exact (expressionStatement_begins h).mono fun kind hk => by simp [hk]
  | print hword | returnNothing hword | returnValue hword | block hword | ifThen hword
  | ifElse hword | whileLoop hword | forLoop hword => exact begins_cons (by rw [hword]; rfl)

theorem declaration_begins {s : Stmt} (h : Declaration ts s) :
    Begins Token.Kind.startsDeclaration ts := by
  cases h with
  | cls hword | function hword | varDecl hword => exact begins_cons (by rw [hword]; rfl)
  | statement h =>
    refine (statement_begins h).mono fun kind hk => ?_
    rw [Token.Kind.startsDeclaration, hk, Bool.true_or]

theorem declarations_begins {ss : List Stmt} (h : Declarations ts ss) :
    ts = [] ∨ Begins Token.Kind.startsDeclaration ts := by
  cases h with
  | nil => exact .inl rfl
  | cons h hrest => exact .inr ((declaration_begins h).append _)

theorem function_begins {f : FunctionDecl} (h : Function ts f) :
    Begins (fun kind => kind = .identifier) ts := by
  obtain ⟨hname⟩ := h
  exact begins_cons (by simp [hname])

end Grammar

/-! ### What ends an expression -/

theorem Tier.kind_mem_of_lookup {tier : Tier} {kind : Token.Kind} {connective : Connective}
    (h : tier.lookup kind = some connective) : kind ∈ tier.map Prod.fst := by
  rw [List.lookup_eq_some_iff] at h
  obtain ⟨before, after, rfl, -⟩ := h
  simp

/-- The tiers share no operators, and no operator is applied or ends the file. -/
theorem Tier.disjoint {tier : Tier} {tiers : List Tier} (h : tier :: tiers <:+ Tier.all) :
    ∀ kind ∈ tier.map Prod.fst,
      kind ∉ [.symbol .leftParen, .symbol .dot, Token.Kind.endOfFile] ∧
        ∀ tighter ∈ tiers, tighter.lookup kind = none := by
  simp only [Tier.all, List.suffix_cons_iff, List.suffix_nil, List.cons.injEq, reduceCtorEq,
    or_false] at h
  rcases h with h | h | h | h | h | h <;> obtain ⟨rfl, rfl⟩ := h <;> decide

namespace Reader

/-- What comes next joins nothing to an operand of these tiers. -/
def EndsOperand (tiers : List Tier) (rest : List Token) : Prop :=
  ¬ Applies rest ∧ ∀ tier ∈ tiers, NextJoin tier rest = none

/-- What comes next does not go on with an expression. -/
def EndsExpression (rest : List Token) : Prop :=
  EndsOperand Tier.all rest ∧ ¬ (Token.Kind.symbol .equal).Starts rest

theorem endsOperand_cons {tiers : List Tier} {token : Token} {rest : List Token}
    (hparen : token.kind ≠ .symbol .leftParen) (hdot : token.kind ≠ .symbol .dot)
    (hjoin : ∀ tier ∈ tiers, tier.lookup token.kind = none) :
    EndsOperand tiers (token :: rest) := by
  refine ⟨?_, hjoin⟩
  rintro (h | h)
  · exact hparen (Token.Kind.starts_cons.mp h)
  · exact hdot (Token.Kind.starts_cons.mp h)

/-- An `=` ends the target before it. -/
theorem endsOperand_equal {token : Token} {rest : List Token}
    (h : token.kind = .symbol .equal) : EndsOperand Tier.all (token :: rest) := by
  refine endsOperand_cons ?_ ?_ ?_ <;> rw [h] <;> decide

/-- A semicolon, a comma or a closing parenthesis ends an expression. -/
theorem endsExpression_cons {token : Token} {rest : List Token}
    (h : token.kind ∈ [.symbol .semicolon, .symbol .comma, .symbol .rightParen]) :
    EndsExpression (token :: rest) := by
  rw [EndsExpression, Token.Kind.starts_cons]
  simp only [List.mem_cons, List.not_mem_nil, or_false] at h
  rcases h with h | h | h
  all_goals
    refine ⟨endsOperand_cons ?_ ?_ ?_, ?_⟩ <;> rw [h] <;> decide

/-- An operator of a tier ends an operand of the tighter tiers. -/
theorem endsOperand_of_lookup {tier : Tier} {tiers : List Tier} {token : Token}
    {rest : List Token} {connective : Connective} (htiers : tier :: tiers <:+ Tier.all)
    (h : tier.lookup token.kind = some connective) : EndsOperand tiers (token :: rest) := by
  obtain ⟨hkind, hjoin⟩ := Tier.disjoint htiers _ (Tier.kind_mem_of_lookup h)
  simp only [List.mem_cons, List.not_mem_nil, not_or, or_false] at hkind
  exact endsOperand_cons hkind.1 hkind.2.1 hjoin

end Reader

end Lox
