/-
The expressions that the grammar derives are read.

`Reader.Reads R rank ends ts n a n'` says that `R`, handing out ids from `n` on, makes
`a` of the tokens `ts` and leaves the ids from `n'` on, whatever tokens with `ends`
follow, whatever faults there were before and however much depth there is beyond a
bound.  One lemma for each production shows how a phrase is read when its parts are;
then every phrase of the grammar is read as its tree, up to ids:

* `Calls.link`, `Joins.join` — chains that group to the left, link by link;
* `assignment_readable` ... `primary_readable` — all expressions.
-/
import Lox.Proofs.Relabelling.Syntax
import Lox.Proofs.Reading.First

namespace Lox.Reader

open Grammar

/-- The reader makes `a` of `ts`, whatever follows and however deep it may go. -/
def Reads {α : Type} (R : Nat → Reader α) (rank : Nat) (ends : List Token → Prop)
    (ts : List Token) (n : Nat) (a : α) (n' : Nat) : Prop :=
  ∀ depth rest faults, 16 * ts.length + rank ≤ depth → ends rest →
    R depth ⟨ts ++ rest, n, faults⟩ = .ok a ⟨rest, n', faults⟩

/-- Anything may follow. -/
def anything (_ : List Token) : Prop :=
  True

section

variable {α : Type} {R : Nat → Reader α} {rank : Nat} {ends : List Token → Prop}
  {ts : List Token} {n n' : Nat} {a : α}

theorem Reads.meets {Q : α → ReaderState → Prop} {E : Stop → ReaderState → Prop} {depth : Nat}
    {rest : List Token} {faults : List SyntaxFault} (h : Reads R rank ends ts n a n')
    (hd : 16 * ts.length + rank ≤ depth) (hends : ends rest) (hQ : Q a ⟨rest, n', faults⟩) :
    (R depth).Meets ⟨ts ++ rest, n, faults⟩ Q E :=
  meets_of_ok (h depth rest faults hd hends) hQ

/-- A bound on the depth leaves room for one step. -/
theorem Reads.intro (hrank : 0 < rank)
    (h : ∀ depth rest faults, 16 * ts.length + rank ≤ depth + 1 → ends rest →
      (R (depth + 1)).Meets ⟨ts ++ rest, n, faults⟩
        (fun b s => b = a ∧ s = ⟨rest, n', faults⟩) fun _ _ => False) :
    Reads R rank ends ts n a n' := by
  intro depth rest faults hd hends
  obtain ⟨depth, rfl⟩ := Nat.exists_eq_succ_of_ne_zero (n := depth) (by omega)
  exact (h depth rest faults hd hends).eq_ok

end

section

variable {token : Token} {rest : List Token} {n : Nat} {faults : List SyntaxFault}
  {E : Stop → ReaderState → Prop} {what : String}

theorem meets_expect_cons {Q : Token → ReaderState → Prop} {kind : Token.Kind}
    (hk : token.kind = kind) (hQ : Q token ⟨rest, n, faults⟩) :
    (expect kind what).Meets ⟨token :: rest, n, faults⟩ Q E := by
  refine meets_expect ?_ fun hmiss => absurd ⟨token, rest, rfl, hk⟩ hmiss
  rintro token' rest' ⟨⟩ _
  exact hQ

theorem meets_expectSymbol_cons {Q : Unit → ReaderState → Prop} {symbol : Symbol}
    (hk : token.kind = .symbol symbol) (hQ : Q () ⟨rest, n, faults⟩) :
    (expectSymbol symbol what).Meets ⟨token :: rest, n, faults⟩ Q E :=
  Meets.bind (meets_expect_cons hk (meets_pure hQ))

theorem meets_expectName_cons {Q : Name → ReaderState → Prop}
    (hk : token.kind = .identifier) (hQ : Q token.name ⟨rest, n, faults⟩) :
    (expectName what).Meets ⟨token :: rest, n, faults⟩ Q E :=
  Meets.bind (meets_expect_cons hk (meets_pure hQ))

end

variable {ts us : List Token} {n n₁ n₂ n₃ : Nat}

/-! ### Primary expressions -/

theorem reads_literal {token : Token} {value : Literal}
    (h : Literal.ofKind? token.kind = some value) :
    Reads primary 1 anything [token] n (.literal value) n := by
  refine Reads.intro (by decide) fun depth rest faults _ _ => ?_
  simp [Meets, primary, peek, skip, h, bind, EStateM.bind, pure, EStateM.pure]

theorem reads_name {token : Token} (h : token.kind = .identifier) :
    Reads primary 1 anything [token] n (.varRef ⟨n, token.name⟩) (n + 1) := by
  refine Reads.intro (by decide) fun depth rest faults _ _ => ?_
  simp [Meets, primary, peek, skip, freshId, h, Literal.ofKind?, Token.name, bind, EStateM.bind,
    pure, EStateM.pure]

theorem reads_this {token : Token} (h : token.kind = .keyword .this) :
    Reads primary 1 anything [token] n (.thisRef n token.line) (n + 1) := by
  refine Reads.intro (by decide) fun depth rest faults _ _ => ?_
  simp [Meets, primary, peek, skip, freshId, h, Literal.ofKind?, bind, EStateM.bind, pure,
    EStateM.pure]

theorem reads_super {token dot name : Token} (h : token.kind = .keyword .super)
    (hdot : dot.kind = .symbol .dot) (hname : name.kind = .identifier) :
    Reads primary 1 anything [token, dot, name] n (.superRef n token.line name.name) (n + 1) := by
  refine Reads.intro (by decide) fun depth rest faults _ _ => ?_
  refine meets_primary ?_ ?_ ?_ ?_ ?_ fun hnone => ?_
  · rintro _ _ value ⟨⟩ hv
    simp [h, Literal.ofKind?] at hv
  · rintro _ _ ⟨⟩ hk
    simp [h] at hk
  · rintro _ _ ⟨⟩ hk
    simp [h] at hk
  · rintro _ _ ⟨⟩ hk
    simp [h] at hk
  · rintro _ _ ⟨⟩ _
    exact meets_expectSymbol_cons hdot (meets_expectName_cons hname ⟨rfl, rfl⟩)
  · have := hnone token _ rfl
    simp [h, Token.Kind.startsPrimary] at this

theorem reads_grouping {opening closing : Token} {inner : Expr}
    (hopening : opening.kind = .symbol .leftParen)
    (h : Reads assignment 10 EndsExpression ts n inner n₁)
    (hclosing : closing.kind = .symbol .rightParen) :
    Reads primary 1 anything (opening :: (ts ++ [closing])) n (.grouping inner) n₁ := by
  refine Reads.intro (by decide) fun depth rest faults hd _ => ?_
  simp only [List.length_cons, List.length_append, List.length_nil] at hd
  simp only [List.cons_append, List.append_assoc, List.nil_append]
  refine meets_primary ?_ ?_ ?_ ?_ ?_ fun hnone => ?_
  · rintro _ _ value ⟨⟩ hv
    simp [hopening, Literal.ofKind?] at hv
  · rintro _ _ ⟨⟩ _
    refine h.meets (by omega) (endsExpression_cons (by simp [hclosing])) ?_
    exact meets_expectSymbol_cons hclosing ⟨rfl, rfl⟩
  · rintro _ _ ⟨⟩ hk
    simp [hopening] at hk
  · rintro _ _ ⟨⟩ hk
    simp [hopening] at hk
  · rintro _ _ ⟨⟩ hk
    simp [hopening] at hk
  · have := hnone opening _ rfl
    simp [hopening, Token.Kind.startsPrimary] at this

/-! ### Calls -/

/-- Reading an operand comes to applying what follows to `callee`. -/
def Calls (ts : List Token) (n : Nat) (callee : Expr) (n' : Nat) : Prop :=
  ∃ links, links < ts.length ∧ ∀ depth rest faults, 16 * ts.length + 1 ≤ depth + links →
    ∀ Q E, (applied depth callee).Meets ⟨rest, n', faults⟩ Q E →
      (unary (depth + links + 1)).Meets ⟨ts ++ rest, n, faults⟩ Q E

theorem nextUnary_of_begins (h : Begins Token.Kind.startsPrimary ts) (rest : List Token) :
    NextUnary (ts ++ rest) = none := by
  obtain ⟨token, others, rfl, hp⟩ := h
  exact UnaryOp.ofKind?_of_startsPrimary hp

theorem Reads.calls {callee : Expr} (h : Reads primary 1 anything ts n callee n₁)
    (hbegins : Begins Token.Kind.startsPrimary ts) : Calls ts n callee n₁ := by
  refine ⟨0, hbegins.length_pos, fun depth rest faults hd Q E happlied => ?_⟩
  refine meets_unary ?_ fun _ => h.meets hd trivial happlied
  intro token rest' op hs hop
  have hnone := nextUnary_of_begins hbegins rest
  rw [show ts ++ rest = token :: rest' from hs, NextUnary] at hnone
  exact absurd hop (by simp_all)

/-- One more link of a chain of calls and properties. -/
theorem Calls.link {callee callee' : Expr} (h : Calls ts n callee n₁) (hpos : 0 < us.length)
    (hlink : ∀ depth rest faults, 16 * us.length ≤ depth → ∀ Q E,
      (applied depth callee').Meets ⟨rest, n₂, faults⟩ Q E →
      (applied (depth + 1) callee).Meets ⟨us ++ rest, n₁, faults⟩ Q E) :
    Calls (ts ++ us) n callee' n₂ := by
  obtain ⟨links, hlt, hcalls⟩ := h
  rw [Calls, List.length_append]
  refine ⟨links + 1, by omega, fun depth rest faults hd Q E happlied => ?_⟩
  have := hcalls (depth + 1) (us ++ rest) faults (by omega) Q E
    (hlink depth rest faults (by omega) Q E happlied)
  rwa [show depth + (links + 1) + 1 = depth + 1 + links + 1 by omega, List.append_assoc]

theorem Calls.property {object : Expr} {dot name : Token} (h : Calls ts n object n₁)
    (hdot : dot.kind = .symbol .dot) (hname : name.kind = .identifier) :
    Calls (ts ++ [dot, name]) n (.get object name.name) n₁ := by
  refine h.link (by simp) fun depth rest faults _ Q E happlied => ?_
  refine meets_applied ?_ ?_ ?_ ?_
  · rintro _ _ ⟨⟩ hk
    simp [hdot] at hk
  · rintro _ _ ⟨⟩ hk
    simp [hdot] at hk
  · rintro _ _ ⟨⟩ _
    exact meets_expectName_cons hname happlied
  · intro hend
    exact absurd (.inr ⟨dot, _, rfl, hdot⟩) hend

theorem Calls.callNone {callee : Expr} {opening closing : Token} (h : Calls ts n callee n₁)
    (hopening : opening.kind = .symbol .leftParen) (hclosing : closing.kind = .symbol .rightParen) :
    Calls (ts ++ [opening, closing]) n (.call callee [] closing.line) n₁ := by
  refine h.link (by simp) fun depth rest faults _ Q E happlied => ?_
  refine meets_applied ?_ ?_ ?_ ?_
  · rintro _ _ ⟨⟩ _ _ _ ⟨⟩ _
    exact happlied
  · rintro _ _ ⟨⟩ _ hmore
    exact absurd ⟨closing, _, rfl, hclosing⟩ hmore
  · rintro _ _ ⟨⟩ hk
    simp [hopening] at hk
  · intro hend
    exact absurd (.inl ⟨opening, _, rfl, hopening⟩) hend

theorem Calls.callSome {callee : Expr} {es : List Expr} {opening closing : Token}
    (h : Calls ts n callee n₁) (hopening : opening.kind = .symbol .leftParen)
    (hbegins : Begins Token.Kind.startsExpression us)
    (harguments : Reads (arguments · 0) 11 (Token.Kind.symbol .rightParen).Starts us n₁ es n₂)
    (hclosing : closing.kind = .symbol .rightParen) :
    Calls (ts ++ opening :: (us ++ [closing])) n (.call callee es closing.line) n₂ := by
  refine h.link (by simp) fun depth rest faults hd Q E happlied => ?_
  simp only [List.length_cons, List.length_append, List.length_nil] at hd
  simp only [List.cons_append, List.append_assoc, List.nil_append]
  refine meets_applied ?_ ?_ ?_ ?_
  · rintro _ _ ⟨⟩ _ paren rest' hr hk
    exact absurd ⟨paren, rest', hr, hk⟩ ((hbegins.append _).not_starts (by decide))
  · rintro _ _ ⟨⟩ _ _
    refine harguments.meets (by omega) ⟨closing, rest, rfl, hclosing⟩ ?_
    exact meets_expect_cons hclosing happlied
  · rintro _ _ ⟨⟩ hk
    simp [hopening] at hk
  · intro hend
    exact absurd (.inl ⟨opening, _, rfl, hopening⟩) hend

/-- What comes next applies nothing. -/
def EndsCall (rest : List Token) : Prop :=
  ¬ Applies rest

theorem Calls.reads {callee : Expr} (h : Calls ts n callee n₁) :
    Reads unary 2 EndsCall ts n callee n₁ := by
  obtain ⟨links, hlt, hcalls⟩ := h
  intro depth rest faults hd hends
  obtain ⟨depth, rfl⟩ := Nat.exists_eq_add_of_le (m := links + 2) (n := depth) (by omega)
  rw [show links + 2 + depth = depth + 1 + links + 1 by omega]
  refine (hcalls (depth + 1) rest faults (by omega) _ _ ?_).eq_ok
  refine meets_applied ?_ ?_ ?_ fun _ => ⟨rfl, rfl⟩
  · exact fun token rest' hs hk => absurd (.inl ⟨token, rest', hs, hk⟩) hends
  · exact fun token rest' hs hk => absurd (.inl ⟨token, rest', hs, hk⟩) hends
  · exact fun token rest' hs hk => absurd (.inr ⟨token, rest', hs, hk⟩) hends

theorem reads_operator {token : Token} {op : UnaryOp} {e : Expr}
    (hop : UnaryOp.ofKind? token.kind = some op) (h : Reads unary 2 EndsCall ts n e n₁) :
    Reads unary 2 EndsCall (token :: ts) n (.unary op token.line e) n₁ := by
  refine Reads.intro (by decide) fun depth rest faults hd hends => ?_
  rw [List.length_cons] at hd
  refine meets_unary ?_ fun hnone => ?_
  · rintro _ _ op' ⟨⟩ hop'
    rw [hop, Option.some.injEq] at hop'
    subst hop'
    exact h.meets (by omega) hends ⟨rfl, rfl⟩
  · simp [NextUnary, hop] at hnone

/-! ### Operands -/

/-- An expression without operators between two operands is an operand of every tier. -/
theorem Reads.operand {e : Expr} (h : Reads unary 2 EndsCall ts n e n₁) :
    ∀ tiers, Reads (operand · tiers) (3 + tiers.length) (EndsOperand tiers) ts n e n₁
  | [] => Reads.intro (by omega) fun depth rest faults hd hends =>
      meets_operand_nil (h.meets (Nat.le_of_succ_le_succ hd) hends.1 ⟨rfl, rfl⟩)
  | tier :: tiers => by
    refine Reads.intro (by omega) fun depth rest faults hd hends => ?_
    rw [List.length_cons] at hd
    obtain ⟨hcall, hjoin⟩ := hends
    refine meets_operand_cons ((h.operand tiers).meets (by omega) ⟨hcall, ?_⟩ ?_)
    · exact fun t ht => hjoin t (List.mem_cons_of_mem _ ht)
    obtain ⟨depth, rfl⟩ := Nat.exists_eq_succ_of_ne_zero (n := depth) (by omega)
    refine meets_joined ?_ fun _ => ⟨rfl, rfl⟩
    intro token rest' connective hs hop
    have hnone := hjoin tier List.mem_cons_self
    rw [show rest = token :: rest' from hs] at hnone
    exact absurd hop (by simp_all [NextJoin])

/-- Reading an operand comes to joining what follows to `left`. -/
def Joins (tier : Tier) (tiers : List Tier) (ts : List Token) (n : Nat) (left : Expr) (n' : Nat) :
    Prop :=
  ∃ links, links ≤ ts.length ∧ ∀ depth rest faults,
    16 * ts.length + 3 + tiers.length ≤ depth + links → EndsOperand tiers rest →
    ∀ Q E, (joined depth tier tiers left).Meets ⟨rest, n', faults⟩ Q E →
      (Reader.operand (depth + links + 1) (tier :: tiers)).Meets ⟨ts ++ rest, n, faults⟩ Q E

variable {tier : Tier} {tiers : List Tier}

theorem Reads.joins {left : Expr}
    (h : Reads (Reader.operand · tiers) (3 + tiers.length) (EndsOperand tiers) ts n left n₁) :
    Joins tier tiers ts n left n₁ :=
  ⟨0, Nat.zero_le _, fun depth rest faults hd hends Q E hjoined =>
    meets_operand_cons (h.meets (by omega) hends hjoined)⟩

theorem Joins.join {left right : Expr} {op : Token} {connective : Connective}
    (htiers : tier :: tiers <:+ Tier.all) (h : Joins tier tiers ts n left n₁)
    (hop : tier.lookup op.kind = some connective)
    (hright : Reads (Reader.operand · tiers) (3 + tiers.length) (EndsOperand tiers) us n₁ right n₂) :
    Joins tier tiers (ts ++ op :: us) n (connective.join left op.line right) n₂ := by
  obtain ⟨links, hle, hjoins⟩ := h
  rw [Joins, List.length_append, List.length_cons]
  refine ⟨links + 1, by omega, fun depth rest faults hd hends Q E hjoined => ?_⟩
  rw [show depth + (links + 1) + 1 = depth + 1 + links + 1 by omega, List.append_assoc]
  refine hjoins (depth + 1) _ faults (by omega) (endsOperand_of_lookup htiers hop) Q E ?_
  refine meets_joined ?_ fun hnone => ?_
  · rintro _ _ connective' ⟨⟩ hop'
    rw [hop, Option.some.injEq] at hop'
    subst hop'
    exact hright.meets (by omega) hends hjoined
  · simp [NextJoin, hop] at hnone

theorem Joins.reads {e : Expr} (h : Joins tier tiers ts n e n₁) :
    Reads (Reader.operand · (tier :: tiers)) (3 + (tiers.length + 1)) (EndsOperand (tier :: tiers))
      ts n e n₁ := by
  obtain ⟨links, hle, hjoins⟩ := h
  rintro depth rest faults hd ⟨hcall, hjoin⟩
  obtain ⟨depth, rfl⟩ := Nat.exists_eq_add_of_le (m := links + 2) (n := depth) (by omega)
  simp only
  rw [show links + 2 + depth = depth + 1 + links + 1 by omega]
  refine (hjoins (depth + 1) rest faults (by omega) ⟨hcall, ?_⟩ _ _ ?_).eq_ok
  · exact fun t ht => hjoin t (List.mem_cons_of_mem _ ht)
  refine meets_joined ?_ fun _ => ⟨rfl, rfl⟩
  intro token rest' connective hs hop
  have hnone := hjoin tier List.mem_cons_self
  rw [show rest = token :: rest' from hs] at hnone
  exact absurd hop (by simp_all [NextJoin])

/-- Reading an operand of the given tiers: from the left through the loosest of them. -/
def ReadsOperand (tiers : List Tier) (ts : List Token) (n : Nat) (e : Expr) (n' : Nat) : Prop :=
  match tiers with
  | [] => Reads unary 2 EndsCall ts n e n'
  | tier :: tiers => Joins tier tiers ts n e n'

theorem ReadsOperand.reads {e : Expr} (h : ReadsOperand tiers ts n e n₁) :
    Reads (Reader.operand · tiers) (3 + tiers.length) (EndsOperand tiers) ts n e n₁ := by
  cases tiers with
  | nil => exact Reads.operand h []
  | cons tier tiers => exact Joins.reads h

/-! ### Assignments and arguments -/

theorem reads_operandAlone {e : Expr}
    (h : Reads (Reader.operand · Tier.all) 9 (EndsOperand Tier.all) ts n e n₁) :
    Reads assignment 10 EndsExpression ts n e n₁ := by
  refine Reads.intro (by decide) fun depth rest faults hd hends => ?_
  refine meets_assignment (h.meets (by omega) hends.1 ⟨?_, fun _ => ⟨rfl, rfl⟩⟩)
  exact fun equals rest' hs hk => absurd ⟨equals, rest', hs, hk⟩ hends.2

theorem reads_assigned {target value e : Expr} {equal : Token}
    (htarget : Reads (Reader.operand · Tier.all) 9 (EndsOperand Tier.all) ts n target n₁)
    (hequal : equal.kind = .symbol .equal)
    (hvalue : Reads assignment 10 EndsExpression us n₁ value n₂)
    (hassigned : ∀ Q s, Q e s → Assigned Q equal target value s) :
    Reads assignment 10 EndsExpression (ts ++ equal :: us) n e n₂ := by
  refine Reads.intro (by decide) fun depth rest faults hd hends => ?_
  simp only [List.length_append, List.length_cons] at hd
  simp only [List.append_assoc, List.cons_append]
  refine meets_assignment (htarget.meets (by omega) (endsOperand_equal hequal) ⟨?_, ?_⟩)
  · rintro _ _ ⟨⟩ _
    exact hvalue.meets (by omega) hends (hassigned _ _ ⟨rfl, rfl⟩)
  · exact fun hn => absurd ⟨equal, _, rfl, hequal⟩ hn

theorem reads_toVariable {name equal : Token} {value : Expr} (hname : name.kind = .identifier)
    (hequal : equal.kind = .symbol .equal)
    (hvalue : Reads assignment 10 EndsExpression us (n + 1) value n₁) :
    Reads assignment 10 EndsExpression (name :: equal :: us) n (.assign ⟨n, name.name⟩ value) n₁ :=
  have htarget := (reads_name (n := n) hname).calls (begins_cons (by rw [hname]; rfl))
  reads_assigned (htarget.reads.operand Tier.all) hequal hvalue fun _ _ h => h

theorem reads_toProperty {object value : Expr} {dot name equal : Token}
    (hobject : Calls ts n object n₁) (hdot : dot.kind = .symbol .dot)
    (hname : name.kind = .identifier) (hequal : equal.kind = .symbol .equal)
    (hvalue : Reads assignment 10 EndsExpression us n₁ value n₂) :
    Reads assignment 10 EndsExpression (ts ++ dot :: name :: equal :: us) n
      (.set object name.name value) n₂ := by
  have htarget := (hobject.property hdot hname).reads.operand Tier.all
  have h := reads_assigned (e := .set object name.name value) htarget hequal hvalue fun _ _ h => h
  rwa [List.append_assoc] at h

theorem counted_of_lt {s : ReaderState} {what : String} {count : Nat} (h : count < maxArity) :
    ReaderState.counted s what count = s := by
  rw [ReaderState.counted, if_neg (by omega)]

theorem reads_lastArgument {e : Expr} {count : Nat} (hcount : count < maxArity)
    (h : Reads assignment 10 EndsExpression ts n e n₁) :
    Reads (arguments · count) 11 (Token.Kind.symbol .rightParen).Starts ts n [e] n₁ := by
  refine Reads.intro (by decide) fun depth rest faults hd hends => ?_
  obtain ⟨closing, others, rfl, hclosing⟩ := hends
  refine meets_arguments ?_
  rw [counted_of_lt hcount]
  refine h.meets (by omega) (endsExpression_cons (by simp [hclosing])) ⟨?_, fun _ => ⟨rfl, rfl⟩⟩
  rintro _ _ ⟨⟩ hk
  simp [hclosing] at hk

theorem reads_moreArguments {e : Expr} {es : List Expr} {comma : Token} {count : Nat}
    (hcount : count < maxArity) (h : Reads assignment 10 EndsExpression ts n e n₁)
    (hcomma : comma.kind = .symbol .comma)
    (hmore : Reads (arguments · (count + 1)) 11 (Token.Kind.symbol .rightParen).Starts us n₁ es n₂) :
    Reads (arguments · count) 11 (Token.Kind.symbol .rightParen).Starts (ts ++ comma :: us) n
      (e :: es) n₂ := by
  refine Reads.intro (by decide) fun depth rest faults hd hends => ?_
  simp only [List.length_append, List.length_cons] at hd
  simp only [List.append_assoc, List.cons_append]
  refine meets_arguments ?_
  rw [counted_of_lt hcount]
  refine h.meets (by omega) (endsExpression_cons (by simp [hcomma])) ⟨?_, ?_⟩
  · rintro _ _ ⟨⟩ _
    exact hmore.meets (by omega) hends ⟨rfl, rfl⟩
  · exact fun hn => absurd ⟨comma, _, rfl, hcomma⟩ hn

/-! ### Expressions -/

/-- The tokens are read as the given tree, up to ids, from whatever id on. -/
def Readable {α β : Type} (R : Nat → Reader α) (rank : Nat) (ends : List Token → Prop)
    (forget : α → β) (ts : List Token) (a : α) : Prop :=
  ∀ n, ∃ a' n', forget a' = forget a ∧ Reads R rank ends ts n a' n'

mutual

theorem assignment_readable : ∀ {ts : List Token} {e : Expr}, Assignment ts e →
    Readable assignment 10 EndsExpression (Expr.relabel .anonymous) ts e
  | _, _, .operand h => fun n => by
    obtain ⟨e', n', hsame, hreads⟩ := operand_readable h (List.suffix_refl _) n
    exact ⟨e', n', hsame, reads_operandAlone hreads.reads⟩
  | _, _, .toVariable hname hequal hvalue => fun n => by
    obtain ⟨value', n', hsame, hreads⟩ := assignment_readable hvalue (n + 1)
    refine ⟨_, n', ?_, reads_toVariable hname hequal hreads⟩
    rw [Expr.relabel, hsame]
    rfl
  | _, _, .toProperty hobject hdot hname hequal hvalue => fun n => by
    obtain ⟨object', n₁, hsame, hcalls⟩ := call_readable hobject n
    obtain ⟨value', n', hsame', hreads⟩ := assignment_readable hvalue n₁
    refine ⟨_, n', ?_, reads_toProperty hcalls hdot hname hequal hreads⟩
    rw [Expr.relabel, Expr.relabel, hsame, hsame']

theorem operand_readable : ∀ {remaining : List Level} {ts : List Token} {e : Expr},
    Operand remaining ts e → remaining <:+ levels → ∀ n, ∃ e' n',
      e'.relabel .anonymous = e.relabel .anonymous ∧
        ReadsOperand (remaining.map Level.tier) ts n e' n'
  | _, _, _, .unary h => fun _ n => by
    obtain ⟨e', n', hsame, hreads⟩ := unary_readable h n
    exact ⟨e', n', hsame, hreads⟩
  | _, _, _, .tighter h => fun hlevels n => by
    obtain ⟨e', n', hsame, hreads⟩ := operand_readable h ((List.suffix_cons _ _).trans hlevels) n
    exact ⟨e', n', hsame, hreads.reads.joins⟩
  | _, _, _, .join hleft hright hop => fun hlevels n => by
    obtain ⟨left', n₁, hsame, hjoins⟩ := operand_readable hleft hlevels n
    obtain ⟨right', n', hsame', hreads⟩ :=
      operand_readable hright ((List.suffix_cons _ _).trans hlevels) n₁
    obtain ⟨connective, hlookup, rfl⟩ := join_iff.mp hop
    have htiers := hlevels.map Level.tier
    rw [map_tier_levels] at htiers
    refine ⟨_, n', ?_, Joins.join htiers hjoins hlookup hreads.reads⟩
    rw [Connective.join_relabel, Connective.join_relabel, hsame, hsame']

theorem unary_readable : ∀ {ts : List Token} {e : Expr}, Unary ts e →
    Readable unary 2 EndsCall (Expr.relabel .anonymous) ts e
  | _, _, .operator hop h => fun n => by
    obtain ⟨e', n', hsame, hreads⟩ := unary_readable h n
    refine ⟨_, n', ?_, reads_operator (sign_iff.mp hop) hreads⟩
    rw [Expr.relabel, Expr.relabel, hsame]
  | _, _, .call h => fun n => by
    obtain ⟨e', n', hsame, hcalls⟩ := call_readable h n
    exact ⟨e', n', hsame, hcalls.reads⟩

theorem call_readable : ∀ {ts : List Token} {e : Expr}, Call ts e → ∀ n, ∃ e' n',
    e'.relabel .anonymous = e.relabel .anonymous ∧ Calls ts n e' n'
  | _, _, .primary h => fun n => by
    obtain ⟨e', n', hsame, hreads⟩ := primary_readable h n
    exact ⟨e', n', hsame, hreads.calls (primary_begins h)⟩
  | _, _, .call hcallee hopening harguments hcount hclosing => fun n => by
    obtain ⟨callee', n₁, hsame, hcalls⟩ := call_readable hcallee n
    rcases arguments_begins harguments with ⟨rfl, rfl⟩ | ⟨hbegins, hne⟩
    · refine ⟨_, n₁, ?_, hcalls.callNone hopening hclosing⟩
      rw [Expr.relabel, Expr.relabel, hsame]
    · obtain ⟨arguments', n', hsame', hreads⟩ :=
        arguments_readable harguments hne 0 (by rwa [maxArity_eq, Nat.zero_add]) n₁
      refine ⟨_, n', ?_, hcalls.callSome hopening hbegins hreads hclosing⟩
      rw [Expr.relabel, Expr.relabel, hsame, hsame']
  | _, _, .property hobject hdot hname => fun n => by
    obtain ⟨object', n', hsame, hcalls⟩ := call_readable hobject n
    refine ⟨_, n', ?_, hcalls.property hdot hname⟩
    rw [Expr.relabel, Expr.relabel, hsame]

theorem arguments_readable : ∀ {ts : List Token} {es : List Expr}, Arguments ts es → es ≠ [] →
    ∀ count, count + es.length ≤ maxArity →
    Readable (arguments · count) 11 (Token.Kind.symbol .rightParen).Starts
      (Expr.relabelEach .anonymous) ts es
  | _, _, .none => fun hne => absurd rfl hne
  | _, _, .last h => fun _ count hcount n => by
    obtain ⟨e', n', hsame, hreads⟩ := assignment_readable h n
    rw [List.length_singleton] at hcount
    refine ⟨_, n', ?_, reads_lastArgument (by omega) hreads⟩
    simp only [Expr.relabelEach, hsame]
  | _, _, .more h hcomma hmore => fun _ count hcount n => by
    obtain ⟨e', n₁, hsame, hreads⟩ := assignment_readable h n
    rw [List.length_cons] at hcount
    obtain ⟨es', n', hsame', hreads'⟩ :=
      arguments_readable hmore (by simp) (count + 1) (by omega) n₁
    refine ⟨_, n', ?_, reads_moreArguments (by omega) hreads hcomma hreads'⟩
    rw [Expr.relabelEach, hsame, hsame']
    rfl

theorem primary_readable : ∀ {ts : List Token} {e : Expr}, Primary ts e →
    Readable primary 1 anything (Expr.relabel .anonymous) ts e
  | _, _, .literal h => fun n => ⟨_, _, rfl, reads_literal (constant_iff.mp h)⟩
  | _, _, .name h => fun n => ⟨.varRef ⟨n, _⟩, _, rfl, reads_name h⟩
  | _, _, .this h => fun n => ⟨.thisRef n _, _, rfl, reads_this h⟩
  | _, _, .super h hdot hname => fun n => ⟨.superRef n _ _, _, rfl, reads_super h hdot hname⟩
  | _, _, .grouping hopening h hclosing => fun n => by
    obtain ⟨inner', n', hsame, hreads⟩ := assignment_readable h n
    refine ⟨_, n', ?_, reads_grouping hopening hreads hclosing⟩
    rw [Expr.relabel, Expr.relabel, hsame]

end

end Lox.Reader
