/-
What the readers of expressions bring about.

One rule for each rule of the grammar of expressions: it says which readers are
called, in which states, and what is made of their values.
-/
import Lox.Proofs.Reading.Rules

namespace Lox

/-- Does an expression without operators start with a token of this kind? -/
def Token.Kind.startsPrimary (kind : Token.Kind) : Bool :=
  (Literal.ofKind? kind).isSome || kind = .symbol .leftParen || kind = .identifier ||
    kind = .keyword .this || kind = .keyword .super

namespace Reader

variable {s : ReaderState} {E : Stop → ReaderState → Prop} {depth : Nat}

/-- The fault of an assignment to something else than a variable or a property. -/
def badTarget (equals : Token) : SyntaxFault :=
  ⟨.invalidAssignmentTarget, some equals⟩

/-- What an assignment makes of its two sides. -/
def Assigned (Q : Expr → ReaderState → Prop) (equals : Token) (target value : Expr)
    (s : ReaderState) : Prop :=
  match target with
  | .varRef reference => Q (.assign reference value) s
  | .get object name => Q (.set object name value) s
  | other => Q other { s with faults := s.faults ++ [badTarget equals] }

theorem meets_assignment {Q : Expr → ReaderState → Prop}
    (h : (operand depth Tier.all).Meets s (fun target s₁ =>
      (∀ equals rest, s₁.tokens = equals :: rest → equals.kind = .symbol .equal →
        (assignment depth).Meets { s₁ with tokens := rest }
          (fun value s₂ => Assigned Q equals target value s₂) E) ∧
      (¬ (Token.Kind.symbol .equal).Starts s₁.tokens → Q target s₁)) E) :
    (assignment (depth + 1)).Meets s Q E := by
  rw [assignment]
  refine Meets.bind (h.imp fun target s₁ ⟨assigned, alone⟩ => ?_)
  refine Meets.bind (meets_peek (Meets.bind (meets_accept ?_ ?_)))
  · intro equals rest hs hk
    refine Meets.bind ((assigned equals rest hs hk).imp fun value s₂ hq => ?_)
    rw [hs, List.head?_cons]
    cases target with
    | varRef reference => exact meets_pure hq
    | get object name => exact meets_pure hq
    | _ => exact Meets.bind (meets_complainAt (meets_pure hq))
  · exact fun hn => meets_pure (alone hn)

theorem meets_operand_nil {Q : Expr → ReaderState → Prop} (h : (unary depth).Meets s Q E) :
    (operand (depth + 1) []).Meets s Q E := by
  rw [operand]
  exact h

theorem meets_operand_cons {Q : Expr → ReaderState → Prop} {tier : Tier} {tighter : List Tier}
    (h : (operand depth tighter).Meets s
      (fun left s₁ => (joined depth tier tighter left).Meets s₁ Q E) E) :
    (operand (depth + 1) (tier :: tighter)).Meets s Q E := by
  rw [operand]
  exact Meets.bind h

/-- The operator of a tier that comes next. -/
def NextJoin (tier : Tier) (tokens : List Token) : Option Connective :=
  tokens.head?.bind fun token => tier.lookup token.kind

theorem meets_joined {Q : Expr → ReaderState → Prop} {tier : Tier} {tighter : List Tier}
    {left : Expr}
    (more : ∀ token rest connective, s.tokens = token :: rest →
      tier.lookup token.kind = some connective →
      (operand depth tighter).Meets { s with tokens := rest } (fun right s₁ =>
        (joined depth tier tighter (connective.join left token.line right)).Meets s₁ Q E) E)
    (done : NextJoin tier s.tokens = none → Q left s) :
    (joined (depth + 1) tier tighter left).Meets s Q E := by
  rw [joined]
  refine Meets.bind (meets_peek ?_)
  unfold NextJoin at done
  rcases hs : s.tokens with _ | ⟨token, rest⟩
  · exact meets_pure (done (by simp [hs]))
  · cases hl : tier.lookup token.kind with
    | none =>
      simp only [List.head?_cons, hl]
      exact meets_pure (done (by simp [hs, hl]))
    | some connective =>
      simp only [List.head?_cons, hl]
      refine Meets.bind (meets_skip (Meets.bind ?_))
      have hm := more token rest connective hs hl
      rwa [hs]

/-- The operator with one operand that comes next. -/
def NextUnary (tokens : List Token) : Option UnaryOp :=
  tokens.head?.bind fun token => UnaryOp.ofKind? token.kind

theorem meets_unary {Q : Expr → ReaderState → Prop}
    (operator : ∀ token rest op, s.tokens = token :: rest → UnaryOp.ofKind? token.kind = some op →
      (unary depth).Meets { s with tokens := rest }
        (fun operand s₁ => Q (.unary op token.line operand) s₁) E)
    (call : NextUnary s.tokens = none → (primary depth).Meets s
      (fun callee s₁ => (applied depth callee).Meets s₁ Q E) E) :
    (unary (depth + 1)).Meets s Q E := by
  rw [unary]
  refine Meets.bind (meets_peek ?_)
  unfold NextUnary at call
  rcases hs : s.tokens with _ | ⟨token, rest⟩
  · exact Meets.bind (call (by simp [hs]))
  · simp only [List.head?_cons, Option.bind_some]
    cases hu : UnaryOp.ofKind? token.kind with
    | none => exact Meets.bind (call (by simp [hs, hu]))
    | some op =>
      refine Meets.bind (meets_skip (Meets.bind ?_))
      rw [hs]
      exact (operator token rest op hs hu).imp fun operand s₁ hq => meets_pure hq

/-- What may follow a callee or an object. -/
def Applies (tokens : List Token) : Prop :=
  (Token.Kind.symbol .leftParen).Starts tokens ∨ (Token.Kind.symbol .dot).Starts tokens

theorem meets_applied {Q : Expr → ReaderState → Prop} {callee : Expr}
    (empty : ∀ token rest, s.tokens = token :: rest → token.kind = .symbol .leftParen →
      ∀ paren rest', rest = paren :: rest' → paren.kind = .symbol .rightParen →
      (applied depth (.call callee [] paren.line)).Meets { s with tokens := rest' } Q E)
    (call : ∀ token rest, s.tokens = token :: rest → token.kind = .symbol .leftParen →
      ¬ (Token.Kind.symbol .rightParen).Starts rest →
      (arguments depth 0).Meets { s with tokens := rest } (fun arguments s₁ =>
        (expect (.symbol .rightParen) "')' after arguments").Meets s₁ (fun paren s₂ =>
          (applied depth (.call callee arguments paren.line)).Meets s₂ Q E) E) E)
    (property : ∀ token rest, s.tokens = token :: rest → token.kind = .symbol .dot →
      (expectName "property name after '.'").Meets { s with tokens := rest } (fun name s₁ =>
        (applied depth (.get callee name)).Meets s₁ Q E) E)
    (done : ¬ Applies s.tokens → Q callee s) :
    (applied (depth + 1) callee).Meets s Q E := by
  rw [applied]
  refine Meets.bind (meets_kind? ?_)
  rcases hs : s.tokens with _ | ⟨token, rest⟩
  · refine meets_pure (done ?_)
    rw [hs]
    rintro (h | h) <;> exact Token.Kind.not_starts_nil h
  · simp only [List.head?_cons, Option.map_some]
    split
    · rename_i hk
      simp only [Option.some.injEq] at hk
      refine Meets.bind (meets_skip (Meets.bind (meets_sees ?_ ?_)))
      · rintro ⟨paren, rest', hr, hp⟩
        rw [hs, List.tail_cons] at hr
        refine Meets.bind (meets_pure (Meets.bind (meets_expect ?_ ?_)))
        · intro token' rest'' hr' hp'
          rw [hs, List.tail_cons] at hr'
          exact empty token rest hs hk token' rest'' hr' hp'
        · intro hn
          rw [hs, List.tail_cons, hr, Token.Kind.starts_cons] at hn
          exact absurd hp hn
      · intro hn
        rw [hs, List.tail_cons] at hn
        rw [hs]
        exact Meets.bind ((call token rest hs hk hn).imp fun arguments s₁ hq => Meets.bind hq)
    · rename_i hk
      simp only [Option.some.injEq] at hk
      refine Meets.bind (meets_skip (Meets.bind ?_))
      rw [hs]
      exact property token rest hs hk
    · rename_i hcall hget
      refine meets_pure (done ?_)
      rw [hs]
      rintro (h | h)
      · exact hcall (congrArg some (Token.Kind.starts_cons.mp h))
      · exact hget (congrArg some (Token.Kind.starts_cons.mp h))

/-- The state after the fault for too many of something, if there are. -/
def ReaderState.counted (s : ReaderState) (what : String) (count : Nat) : ReaderState :=
  if maxArity ≤ count then
    { s with faults := s.faults ++ [⟨.tooMany what, s.tokens.head?⟩] }
  else s

@[simp] theorem ReaderState.counted_tokens (s : ReaderState) (what : String) (count : Nat) :
    (ReaderState.counted s what count).tokens = s.tokens := by
  unfold ReaderState.counted
  split <;> rfl

@[simp] theorem ReaderState.counted_nextId (s : ReaderState) (what : String) (count : Nat) :
    (ReaderState.counted s what count).nextId = s.nextId := by
  unfold ReaderState.counted
  split <;> rfl

theorem meets_counting {α : Type} {Q : α → ReaderState → Prop} {what : String} {count : Nat}
    {next : Reader α} (h : next.Meets (ReaderState.counted s what count) Q E) :
    (do
      if maxArity ≤ count then
        complain (.tooMany what)
      next : Reader α).Meets s Q E := by
  unfold ReaderState.counted at h
  show Meets (if maxArity ≤ count then _ else _) _ _ _
  split
  · rename_i hc
    rw [if_pos hc] at h
    exact Meets.bind (Meets.bind (meets_peek (meets_complainAt h)))
  · rename_i hc
    rw [if_neg hc] at h
    exact h

theorem meets_arguments {Q : List Expr → ReaderState → Prop} {count : Nat}
    (h : (assignment depth).Meets (ReaderState.counted s "arguments" count)
      (fun argument s₁ =>
        (∀ comma rest, s₁.tokens = comma :: rest → comma.kind = .symbol .comma →
          (arguments depth (count + 1)).Meets { s₁ with tokens := rest }
            (fun others s₂ => Q (argument :: others) s₂) E) ∧
        (¬ (Token.Kind.symbol .comma).Starts s₁.tokens → Q [argument] s₁)) E) :
    (arguments (depth + 1) count).Meets s Q E := by
  rw [arguments]
  refine meets_counting (Meets.bind (h.imp fun argument s₁ ⟨more, last⟩ => ?_))
  refine Meets.bind (meets_accept ?_ ?_)
  · intro comma rest hs hk
    exact Meets.bind ((more comma rest hs hk).imp fun others s₂ hq => meets_pure hq)
  · exact fun hn => meets_pure (last hn)

/-! ### Primary expressions -/

theorem meets_primary {Q : Expr → ReaderState → Prop}
    (literal : ∀ token rest value, s.tokens = token :: rest →
      Literal.ofKind? token.kind = some value →
      Q (.literal value) { s with tokens := rest })
    (grouping : ∀ token rest, s.tokens = token :: rest → token.kind = .symbol .leftParen →
      (assignment depth).Meets { s with tokens := rest } (fun inner s₁ =>
        (expectSymbol .rightParen "')' after expression").Meets s₁
          (fun _ s₂ => Q (.grouping inner) s₂) E) E)
    (name : ∀ token rest, s.tokens = token :: rest → token.kind = .identifier →
      Q (.varRef ⟨s.nextId, ⟨token.lexeme, token.line⟩⟩)
        { s with tokens := rest, nextId := s.nextId + 1 })
    (this : ∀ token rest, s.tokens = token :: rest → token.kind = .keyword .this →
      Q (.thisRef s.nextId token.line) { s with tokens := rest, nextId := s.nextId + 1 })
    (super : ∀ token rest, s.tokens = token :: rest → token.kind = .keyword .super →
      (expectSymbol .dot "'.' after 'super'").Meets { s with tokens := rest } (fun _ s₁ =>
        (expectName "superclass method name").Meets s₁ (fun method s₂ =>
          Q (.superRef s₂.nextId token.line method) { s₂ with nextId := s₂.nextId + 1 }) E) E)
    (none : (∀ token rest, s.tokens = token :: rest → token.kind.startsPrimary = false) →
      E (.fault (.expected "expression")) s) :
    (primary (depth + 1)).Meets s Q E := by
  rw [primary]
  refine Meets.bind (meets_peek ?_)
  rcases hs : s.tokens with _ | ⟨token, rest⟩
  · refine meets_fail (none fun token rest h => ?_)
    rw [hs] at h
    cases h
  · simp only [List.head?_cons]
    cases hl : Literal.ofKind? token.kind with
    | some value =>
      refine Meets.bind (meets_skip (meets_pure ?_))
      rw [hs]
      exact literal token rest value hs hl
    | none =>
      dsimp only
      split
      · rename_i hk
        refine Meets.bind (meets_skip (Meets.bind ?_))
        rw [hs]
        exact (grouping token rest hs hk).imp fun inner s₁ hq => Meets.bind hq
      · rename_i hk
        refine Meets.bind (meets_skip (Meets.bind (meets_freshId (meets_pure ?_))))
        rw [hs]
        exact name token rest hs hk
      · rename_i hk
        refine Meets.bind (meets_skip (Meets.bind (meets_freshId (meets_pure ?_))))
        rw [hs]
        exact this token rest hs hk
      · rename_i hk
        refine Meets.bind (meets_skip (Meets.bind ?_))
        rw [hs]
        refine (super token rest hs hk).imp fun _ s₁ hq => ?_
        exact Meets.bind (hq.imp fun method s₂ hq' => Meets.bind (meets_freshId (meets_pure hq')))
      · rename_i hparen hname hthis hsuper
        refine meets_fail (none fun token' rest' h => ?_)
        rw [hs, List.cons.injEq] at h
        rw [← h.1]
        simpa [Token.Kind.startsPrimary, hl] using ⟨⟨⟨hparen, hname⟩, hthis⟩, hsuper⟩

end Reader

end Lox
