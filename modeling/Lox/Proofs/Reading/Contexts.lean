/-
Reading does not depend on what is around the tokens.

A reader that has tokens left when it ends took the others for what they are: with more
tokens behind them, other faults noted before and a higher free id it does the same, and
what it reads differs in the ids alone, all of which are higher by the same number.  More
depth makes no difference either.

* `Reader.Alike c f x y` — the action `y` does in the context `c` what `x` does alone;
* `Reader.alike_expressions`, `Reader.alike_statements` — the rules of the grammar;
* `Reader.alike_program` — whole programs.
-/
import Lox.Proofs.Reading.StatementRules
import Lox.Proofs.Relabelling.Syntax

namespace Lox

/-- Ids that are higher by `k`. -/
def Relabelling.up (k : Nat) : Relabelling :=
  .ids (· + k)

theorem Stmt.relabelEach_toList (r : Relabelling) (first : Option Stmt) (others : List Stmt) :
    Stmt.relabelEach r (first.toList ++ others) =
      (first.map (Stmt.relabel r)).toList ++ Stmt.relabelEach r others := by
  cases first <;> rfl

/-- Where reading goes on inside of the tokens is not changed by what follows. -/
theorem resume_append {tokens : List Token} (h : resume tokens ≠ []) (rest : List Token) :
    resume (tokens ++ rest) = resume tokens ++ rest := by
  induction tokens with
  | nil => exact absurd rfl h
  | cons token tokens ih =>
    rw [List.cons_append, resume, resume]
    rw [resume] at h
    by_cases hend : token.kind = .endOfFile
    · rw [if_pos hend, if_pos hend, List.cons_append]
    · rw [if_neg hend] at h
      rw [if_neg hend, if_neg hend]
      by_cases hsemicolon : token.kind = .symbol .semicolon
      · rw [if_pos hsemicolon, if_pos hsemicolon]
      · rw [if_neg hsemicolon] at h
        rw [if_neg hsemicolon, if_neg hsemicolon]
        have hhead : (tokens ++ rest).head? = tokens.head? := by
          cases tokens with
          | nil => exact absurd rfl h
          | cons next tokens => rfl
        rw [hhead]
        split
        · rfl
        · rename_i hstarts
          rw [if_neg hstarts] at h
          exact ih h

/-- What is around tokens that are read: the ids handed out and the faults noted before
them, and the tokens that follow. -/
structure Context where
  ids : Nat
  faults : List SyntaxFault
  tokens : List Token

/-- The state in a context. -/
def ReaderState.within (c : Context) (state : ReaderState) : ReaderState :=
  ⟨state.tokens ++ c.tokens, state.nextId + c.ids, c.faults ++ state.faults⟩

namespace Reader

variable {α β γ δ : Type} {c : Context} {s s₁ s₂ s' : ReaderState} {depth depth' : Nat}

/-- Faults are noted, each of them at a token. -/
def Notes (s s' : ReaderState) : Prop :=
  ∃ noted, s'.faults = s.faults ++ noted ∧ ∀ fault ∈ noted, fault.found ≠ none

theorem Notes.none (h : s'.faults = s.faults) : Notes s s' :=
  ⟨[], by rw [h, List.append_nil], fun _ => List.not_mem_nil.elim⟩

theorem Notes.trans (h : Notes s s₁) (h' : Notes s₁ s₂) : Notes s s₂ := by
  obtain ⟨noted, hnoted, hfound⟩ := h
  obtain ⟨noted', hnoted', hfound'⟩ := h'
  refine ⟨noted ++ noted', by rw [hnoted', hnoted, List.append_assoc], fun fault hmem => ?_⟩
  exact (List.mem_append.mp hmem).elim (hfound fault) (hfound' fault)

/-- Tokens do not come back, and until none is left, faults are noted at tokens only. -/
structure Passes (s s' : ReaderState) : Prop where
  tokens : s.tokens = [] → s'.tokens = []
  notes : s'.tokens ≠ [] → Notes s s'

theorem Passes.of_faults (tokens : s.tokens = [] → s'.tokens = []) (h : s'.faults = s.faults) :
    Passes s s' :=
  ⟨tokens, fun _ => .none h⟩

theorem Passes.refl (s : ReaderState) : Passes s s :=
  .of_faults id rfl

theorem Passes.trans (h : Passes s s₁) (h' : Passes s₁ s₂) : Passes s s₂ :=
  ⟨h'.tokens ∘ h.tokens, fun hleft => (h.notes (hleft ∘ h'.tokens)).trans (h'.notes hleft)⟩

/-- A fault is noted at the current token. -/
theorem Passes.complain (error : SyntaxError) :
    Passes s { s with faults := s.faults ++ [⟨error, s.tokens.head?⟩] } := by
  refine ⟨id, fun hleft => ⟨_, rfl, List.forall_mem_singleton.mpr fun hnone => hleft ?_⟩⟩
  exact List.head?_eq_none_iff.mp hnone

/-- The tokens that follow cannot be seen. -/
def Covers (c : Context) (s : ReaderState) : Prop :=
  s.tokens ≠ [] ∨ c.tokens = []

theorem Covers.back (h : Covers c s') (hpass : Passes s s') : Covers c s :=
  h.imp_left fun hleft => hleft ∘ hpass.tokens

theorem Covers.head? (h : Covers c s) : (s.within c).tokens.head? = s.tokens.head? := by
  rcases h with hleft | hnone
  · obtain ⟨token, rest, htokens⟩ := List.exists_cons_of_ne_nil hleft
    rw [ReaderState.within, htokens]
    rfl
  · rw [ReaderState.within, hnone, List.append_nil]

/-- The second reader does in the context what the first one does alone, unless it could
see the tokens that follow, or the first one was short of depth. -/
def Alike (c : Context) (f : α → β) (x : Reader α) (y : Reader β) : Prop :=
  ∀ s, x.Meets s
    (fun a s' => Passes s s' ∧ (Covers c s' → y (s.within c) = .ok (f a) (s'.within c)))
    fun stop s' => stop ≠ .exhausted →
      Passes s s' ∧ (Covers c s' → y (s.within c) = .error stop (s'.within c))

/-! ### Actions -/

theorem alike_pure (f : α → β) (a : α) : Alike c f (pure a) (pure (f a)) :=
  fun s => meets_pure ⟨.refl s, fun _ => rfl⟩

theorem alike_fail (f : α → β) (error : SyntaxError) : Alike c f (fail error) (fail error) :=
  fun s => meets_fail fun _ => ⟨.refl s, fun _ => rfl⟩

theorem alike_exhausted (f : α → β) (y : Reader β) : Alike c f exhausted y :=
  fun _ => meets_exhausted fun h => absurd rfl h

theorem bind_ok {x : Reader α} {u : α → Reader γ} {a : α} (h : x s = .ok a s') :
    (x >>= u) s = u a s' := by
  show EStateM.bind x u s = u a s'
  rw [EStateM.bind, h]

theorem bind_error {x : Reader α} {u : α → Reader γ} {stop : Stop} (h : x s = .error stop s') :
    (x >>= u) s = .error stop s' := by
  show EStateM.bind x u s = .error stop s'
  rw [EStateM.bind, h]

theorem Alike.bind {f : α → β} {g : γ → δ} {x : Reader α} {y : Reader β} {u : α → Reader γ}
    {v : β → Reader δ} (h : Alike c f x y) (huv : ∀ a, Alike c g (u a) (v (f a))) :
    Alike c g (x >>= u) (y >>= v) := by
  intro s
  refine Meets.bind ((h s).mono ?_ ?_)
  · intro a s₁ ⟨hpass, hy⟩
    -- If tokens are left after the second action, then some were left after the first one.
    have hbind : ∀ {s₂ : ReaderState}, Passes s₁ s₂ → Covers c s₂ →
        (y >>= v) (s.within c) = v (f a) (s₁.within c) := fun hpass' hcovers =>
      bind_ok (hy (hcovers.back hpass'))
    refine (huv a s₁).mono ?_ ?_
    · intro b s₂ ⟨hpass', hv⟩
      exact ⟨hpass.trans hpass', fun hcovers => (hbind hpass' hcovers).trans (hv hcovers)⟩
    · intro stop s₂ hstops hstop
      obtain ⟨hpass', hv⟩ := hstops hstop
      exact ⟨hpass.trans hpass', fun hcovers => (hbind hpass' hcovers).trans (hv hcovers)⟩
  · intro stop s₁ hstops hstop
    obtain ⟨hpass, hy⟩ := hstops hstop
    exact ⟨hpass, fun hcovers => bind_error (hy hcovers)⟩

/-- A reader whose value has no ids, before another one. -/
theorem Alike.andThen {g : γ → δ} {x y : Reader α} {u : α → Reader γ} {v : α → Reader δ}
    (h : Alike c id x y) (huv : ∀ a, Alike c g (u a) (v a)) : Alike c g (x >>= u) (y >>= v) :=
  h.bind huv

theorem Alike.some {f : α → β} {x : Reader α} {y : Reader β} (h : Alike c f x y) :
    Alike c (Option.map f) (Option.some <$> x) (Option.some <$> y) := by
  rw [← bind_pure_comp, ← bind_pure_comp]
  exact h.bind fun a => alike_pure (Option.map f) (Option.some a)

theorem alike_peek : Alike c id peek peek := by
  refine fun s => meets_peek ⟨.refl s, fun hcovers => ?_⟩
  exact congrArg (EStateM.Result.ok · (s.within c)) hcovers.head?

theorem alike_skip : Alike c id skip skip := by
  refine fun s => meets_skip ⟨.of_faults (fun h => by rw [h]; rfl) rfl, fun hcovers => ?_⟩
  have htail : (s.tokens ++ c.tokens).tail = s.tokens.tail ++ c.tokens := by
    rcases hcovers with hleft | hnone
    · exact List.tail_append_of_ne_nil fun h => hleft (by rw [h]; rfl)
    · rw [hnone, List.append_nil, List.append_nil]
  rw [skip, ReaderState.within, ReaderState.within, htail]

/-- The one action that looks at the free id. -/
theorem alike_freshId : Alike c (· + c.ids) freshId freshId := by
  refine fun s => meets_freshId ⟨.of_faults id rfl, fun _ => ?_⟩
  rw [freshId, ReaderState.within, ReaderState.within, Nat.add_right_comm s.nextId 1]

theorem complainAt_within (found : Option Token) (error : SyntaxError) (s : ReaderState) :
    complainAt found error (s.within c) =
      .ok () (ReaderState.within c { s with faults := s.faults ++ [⟨error, found⟩] }) := by
  simp only [complainAt, ReaderState.within, List.append_assoc]

theorem alike_complainAt (token : Token) (error : SyntaxError) :
    Alike c id (complainAt (Option.some token) error) (complainAt (Option.some token) error) := by
  refine fun s => meets_complainAt ⟨⟨id, fun _ => ⟨_, rfl, ?_⟩⟩, fun _ => ?_⟩
  · exact List.forall_mem_singleton.mpr (Option.some_ne_none token)
  · exact complainAt_within _ _ s

theorem alike_complain (error : SyntaxError) : Alike c id (complain error) (complain error) := by
  refine fun s => Meets.bind (meets_peek (meets_complainAt ⟨.complain error, fun hcovers => ?_⟩))
  -- Both readers see the same token first, and the fault is noted there.
  have hhead : (s.within c).tokens.head? = s.tokens.head? := Covers.head? (s := s) hcovers
  show complainAt (s.within c).tokens.head? error (s.within c) = _
  rw [hhead]
  exact complainAt_within _ _ s

theorem alike_kind? : Alike c id kind? kind? :=
  alike_peek.andThen fun _ => alike_pure id _

theorem alike_sees (kind : Token.Kind) : Alike c id (sees kind) (sees kind) :=
  alike_kind?.andThen fun _ => alike_pure id _

theorem alike_atEnd : Alike c id atEnd atEnd := by
  refine alike_kind?.andThen fun kind => ?_
  cases kind <;> exact alike_pure id _

theorem alike_accept (kind : Token.Kind) : Alike c id (accept kind) (accept kind) := by
  refine (alike_sees kind).andThen fun seen => ?_
  cases seen with
  | true => exact alike_skip.andThen fun _ => alike_pure id true
  | false => exact alike_pure id false

/-- A fault that is noted after a token was accepted is noted at this token. -/
theorem Alike.accepting {kind : Token.Kind} {g : γ → δ} {u : Option Token → Bool → Reader γ}
    {v : Option Token → Bool → Reader δ}
    (taken : ∀ token, Alike c g (u (Option.some token) true) (v (Option.some token) true))
    (left : ∀ found, Alike c g (u found false) (v found false)) :
    Alike c g (peek >>= fun found => accept kind >>= u found)
      (peek >>= fun found => accept kind >>= v found) := by
  have hcases : ∀ {ε : Type} (w : Option Token → Bool → Reader ε),
      (peek >>= fun found => accept kind >>= w found) =
        peek >>= fun found =>
          found.elim (w none false) fun token => accept kind >>= w (Option.some token) := by
    intro ε w
    funext ⟨tokens, nextId, faults⟩
    cases tokens <;> rfl
  -- Without a token at the front none is accepted, and nothing is noted there.
  rw [hcases u, hcases v]
  refine alike_peek.andThen fun found => ?_
  cases found with
  | none => exact left none
  | some token =>
    refine (alike_accept kind).andThen fun accepted => ?_
    cases accepted with
    | true => exact taken token
    | false => exact left _

theorem alike_expect (kind : Token.Kind) (what : String) :
    Alike c id (expect kind what) (expect kind what) := by
  refine alike_peek.andThen fun found => ?_
  cases found with
  | none => exact alike_fail id _
  | some token =>
    dsimp only
    by_cases hkind : token.kind = kind
    · rw [if_pos hkind]
      exact alike_skip.andThen fun _ => alike_pure id token
    · rw [if_neg hkind]
      exact alike_fail id _

theorem alike_expectName (what : String) : Alike c id (expectName what) (expectName what) :=
  (alike_expect _ what).andThen fun _ => alike_pure id _

theorem alike_expectSymbol (symbol : Symbol) (what : String) :
    Alike c id (expectSymbol symbol what) (expectSymbol symbol what) :=
  (alike_expect _ what).andThen fun _ => alike_pure id ()

/-! ### Expressions -/

/-- The rules of expressions do the same in a context, at the second depth. -/
structure ExpressionsAlike (c : Context) (depth depth' : Nat) : Prop where
  assignment : Alike c (Expr.relabel (.up c.ids)) (assignment depth) (assignment depth')
  operand : ∀ tiers,
    Alike c (Expr.relabel (.up c.ids)) (operand depth tiers) (operand depth' tiers)
  joined : ∀ tier tighter left, Alike c (Expr.relabel (.up c.ids))
    (joined depth tier tighter left) (joined depth' tier tighter (left.relabel (.up c.ids)))
  unary : Alike c (Expr.relabel (.up c.ids)) (unary depth) (unary depth')
  applied : ∀ callee, Alike c (Expr.relabel (.up c.ids))
    (applied depth callee) (applied depth' (callee.relabel (.up c.ids)))
  arguments : ∀ count,
    Alike c (Expr.relabelEach (.up c.ids)) (arguments depth count) (arguments depth' count)
  primary : Alike c (Expr.relabel (.up c.ids)) (primary depth) (primary depth')

theorem alike_expressions (h : depth ≤ depth') : ExpressionsAlike c depth depth' := by
  induction depth generalizing depth' with
  | zero =>
    constructor
    case assignment => exact alike_exhausted _ _
    case operand => exact fun tiers => alike_exhausted _ _
    case joined => exact fun tier tighter left => alike_exhausted _ _
    case unary => exact alike_exhausted _ _
    case applied => exact fun callee => alike_exhausted _ _
    case arguments => exact fun count => alike_exhausted _ _
    case primary => exact alike_exhausted _ _
  | succ depth ih =>
    obtain ⟨depth', rfl⟩ := Nat.exists_eq_succ_of_ne_zero (Nat.ne_zero_of_lt h)
    have ih := ih (Nat.le_of_succ_le_succ h)
    constructor
    case assignment =>
      refine (ih.operand Tier.all).bind fun target => ?_
      refine Alike.accepting (fun equals => ?_) fun _ => alike_pure _ target
      refine ih.assignment.bind fun value => ?_
      cases target with
      | varRef reference => exact alike_pure _ (Expr.assign reference value)
      | get object name => exact alike_pure _ (Expr.set object name value)
      | _ => exact (alike_complainAt _ _).andThen fun _ => alike_pure (Expr.relabel (.up c.ids)) _
    case operand =>
      intro tiers
      cases tiers with
      | nil => exact ih.unary
      | cons tier tighter =>
        exact (ih.operand tighter).bind fun left => ih.joined tier tighter left
    case joined =>
      intro tier tighter left
      refine alike_peek.andThen fun found => ?_
      cases found with
      | none => exact alike_pure _ left
      | some token =>
        dsimp only
        cases tier.lookup token.kind with
        | none => exact alike_pure _ left
        | some connective =>
          refine alike_skip.andThen fun _ => (ih.operand tighter).bind fun right => ?_
          -- What was joined so far has its ids moved as a whole.
          have hjoin := Connective.join_relabel (r := .up c.ids) left token.line right connective
          have hrest := ih.joined tier tighter (connective.join left token.line right)
          rw [hjoin] at hrest
          exact hrest
    case unary =>
      refine alike_peek.andThen fun front => ?_
      split
      · rename_i op line _
        refine alike_skip.andThen fun _ => ih.unary.bind fun operand => ?_
        exact alike_pure (Expr.relabel (.up c.ids)) (Expr.unary op line operand)
      · exact ih.primary.bind ih.applied
    case applied =>
      intro callee
      refine alike_kind?.andThen fun kind => ?_
      split
      · refine alike_skip.andThen fun _ => (alike_sees _).andThen fun empty => ?_
        have hclose : ∀ arguments, Alike c (Expr.relabel (.up c.ids))
            (expect (.symbol .rightParen) "')' after arguments" >>= fun paren =>
              Reader.applied depth (.call callee arguments paren.line))
            (expect (.symbol .rightParen) "')' after arguments" >>= fun paren =>
              Reader.applied depth' (.call (callee.relabel (.up c.ids))
                (Expr.relabelEach (.up c.ids) arguments) paren.line)) := fun arguments =>
          (alike_expect _ _).andThen fun paren => ih.applied (.call callee arguments paren.line)
        cases empty with
        | true => exact (alike_pure (Expr.relabelEach (.up c.ids)) []).bind hclose
        | false => exact (ih.arguments 0).bind hclose
      · refine alike_skip.andThen fun _ => (alike_expectName _).andThen fun name => ?_
        exact ih.applied (.get callee name)
      · exact alike_pure _ callee
    case arguments =>
      intro count
      have hrest : Alike c (Expr.relabelEach (.up c.ids))
          (do
            let argument ← Reader.assignment depth
            if ← accept (.symbol .comma) then
              return argument :: (← Reader.arguments depth (count + 1))
            else
              return [argument])
          (do
            let argument ← Reader.assignment depth'
            if ← accept (.symbol .comma) then
              return argument :: (← Reader.arguments depth' (count + 1))
            else
              return [argument]) := by
        refine ih.assignment.bind fun argument => (alike_accept _).andThen fun more => ?_
        cases more with
        | false => exact alike_pure _ [argument]
        | true => exact (ih.arguments _).bind fun others => alike_pure _ (argument :: others)
      show Alike c _ (Reader.arguments (depth + 1) count) (Reader.arguments (depth' + 1) count)
      rw [Reader.arguments, Reader.arguments]
      by_cases hcount : maxArity ≤ count
      · rw [if_pos hcount, if_pos hcount]
        exact (alike_complain _).andThen fun _ => hrest
      · rw [if_neg hcount, if_neg hcount]
        exact hrest
    case primary =>
      refine alike_peek.andThen fun found => ?_
      cases found with
      | none => exact alike_fail _ _
      | some token =>
        dsimp only
        cases Literal.ofKind? token.kind with
        | some value => exact alike_skip.andThen fun _ => alike_pure _ (Expr.literal value)
        | none =>
          dsimp only
          split
          · refine alike_skip.andThen fun _ => ih.assignment.bind fun inner => ?_
            exact (alike_expectSymbol _ _).andThen fun _ => alike_pure _ (Expr.grouping inner)
          · refine alike_skip.andThen fun _ => alike_freshId.bind fun id => ?_
            exact alike_pure (Expr.relabel (.up c.ids)) (.varRef ⟨id, ⟨token.lexeme, token.line⟩⟩)
          · refine alike_skip.andThen fun _ => alike_freshId.bind fun id => ?_
            exact alike_pure (Expr.relabel (.up c.ids)) (.thisRef id token.line)
          · refine alike_skip.andThen fun _ => (alike_expectSymbol _ _).andThen fun _ => ?_
            refine (alike_expectName _).andThen fun method => alike_freshId.bind fun id => ?_
            exact alike_pure (Expr.relabel (.up c.ids)) (.superRef id token.line method)
          · exact alike_fail _ _

theorem alike_expression (h : depth ≤ depth') :
    Alike c (Expr.relabel (.up c.ids)) (expression depth) (expression depth') :=
  (alike_expressions h).assignment

/-! ### Statements -/

/-- Where a declaration does not fit, the same tokens are left out, unless these are all. -/
theorem Alike.recover {x y : Reader Stmt} (h : Alike c (Stmt.relabel (.up c.ids)) x y) :
    Alike c (Option.map (Stmt.relabel (.up c.ids))) (recover x) (recover y) := by
  refine fun s => meets_recover ((h s).mono ?_ ?_)
  · intro stmt s₁ ⟨hpass, hy⟩
    refine ⟨hpass, fun hcovers => ?_⟩
    rw [Reader.recover, hy hcovers]
    rfl
  · intro stop s₁ hstops
    cases stop with
    | exhausted => exact fun h => absurd rfl h
    | fault error =>
      obtain ⟨hpass, hy⟩ := hstops Stop.noConfusion
      have hresume : Passes s₁ { s₁ with
          tokens := resume s₁.tokens
          faults := s₁.faults ++ [⟨error, s₁.tokens.head?⟩] } :=
        (Passes.complain error).trans
          (.of_faults (fun h => by rw [show s₁.tokens = [] from h]; rfl) rfl)
      -- Tokens are left after those that were left out, so the search for them ended inside.
      refine ⟨hpass.trans hresume, fun hcovers => ?_⟩
      have hcovers₁ : Covers c s₁ := hcovers.back hresume
      have htokens : resume (s₁.tokens ++ c.tokens) = resume s₁.tokens ++ c.tokens := by
        rcases hcovers with hleft | hnone
        · exact resume_append hleft _
        · rw [hnone, List.append_nil, List.append_nil]
      rw [Reader.recover, hy hcovers₁]
      simp only [hcovers₁.head?]
      simp only [ReaderState.within, htokens, List.append_assoc, Option.map_none]

theorem alike_returnStatement (h : depth ≤ depth') (line : Nat) :
    Alike c (Stmt.relabel (.up c.ids)) (returnStatement depth line) (returnStatement depth' line) := by
  refine (alike_sees _).andThen fun missing => ?_
  have hclose : ∀ value, Alike c (Stmt.relabel (.up c.ids))
      (expectSymbol .semicolon "';' after return value" >>= fun _ =>
        pure (.returnValue line value))
      (expectSymbol .semicolon "';' after return value" >>= fun _ =>
        pure (.returnValue line (value.map (Expr.relabel (.up c.ids))))) := by
    intro value
    refine (alike_expectSymbol _ _).andThen fun _ => ?_
    cases value <;> exact alike_pure _ (Stmt.returnValue line _)
  cases missing with
  | true => exact (alike_pure (Option.map (Expr.relabel (.up c.ids))) none).bind hclose
  | false => exact (alike_expression h).some.bind hclose

theorem alike_expressionStatement (h : depth ≤ depth') :
    Alike c (Stmt.relabel (.up c.ids)) (expressionStatement depth) (expressionStatement depth') := by
  refine (alike_expression h).bind fun value => ?_
  exact (alike_expectSymbol _ _).andThen fun _ => alike_pure _ (Stmt.expression value)

theorem alike_printStatement (h : depth ≤ depth') :
    Alike c (Stmt.relabel (.up c.ids)) (printStatement depth) (printStatement depth') := by
  refine (alike_expression h).bind fun value => ?_
  exact (alike_expectSymbol _ _).andThen fun _ => alike_pure _ (Stmt.print value)

theorem alike_varDeclaration (h : depth ≤ depth') :
    Alike c (Stmt.relabel (.up c.ids)) (varDeclaration depth) (varDeclaration depth') := by
  refine (alike_expectName _).andThen fun name => (alike_accept _).andThen fun given => ?_
  have hclose : ∀ value, Alike c (Stmt.relabel (.up c.ids))
      (expectSymbol .semicolon "';' after variable declaration" >>= fun _ =>
        pure (.varDecl name value))
      (expectSymbol .semicolon "';' after variable declaration" >>= fun _ =>
        pure (.varDecl name (value.map (Expr.relabel (.up c.ids))))) := by
    intro value
    refine (alike_expectSymbol _ _).andThen fun _ => ?_
    cases value <;> exact alike_pure _ (Stmt.varDecl name _)
  cases given with
  | true => exact (alike_expression h).some.bind hclose
  | false => exact (alike_pure (Option.map (Expr.relabel (.up c.ids))) none).bind hclose

theorem alike_forInitializer (h : depth ≤ depth') :
    Alike c (Option.map (Stmt.relabel (.up c.ids))) (forInitializer depth) (forInitializer depth') := by
  refine (alike_accept _).andThen fun empty => ?_
  cases empty with
  | true => exact alike_pure _ none
  | false =>
    refine (alike_accept _).andThen fun isVar => ?_
    cases isVar with
    | true => exact (alike_varDeclaration h).bind fun s => alike_pure _ (Option.some s)
    | false => exact (alike_expressionStatement h).bind fun s => alike_pure _ (Option.some s)

theorem alike_optionalBefore (h : depth ≤ depth') (symbol : Symbol) :
    Alike c (Option.map (Expr.relabel (.up c.ids))) (optionalBefore depth symbol)
      (optionalBefore depth' symbol) := by
  refine (alike_sees _).andThen fun missing => ?_
  cases missing with
  | true => exact alike_pure _ none
  | false => exact (alike_expression h).bind fun value => alike_pure _ (Option.some value)

/-- Parameters have no ids at all. -/
theorem alike_parameters (h : depth ≤ depth') (count : Nat) :
    Alike c id (parameters depth count) (parameters depth' count) := by
  induction depth generalizing depth' count with
  | zero => exact alike_exhausted _ _
  | succ depth ih =>
    obtain ⟨depth', rfl⟩ := Nat.exists_eq_succ_of_ne_zero (Nat.ne_zero_of_lt h)
    have ih := ih (Nat.le_of_succ_le_succ h)
    have hrest : Alike c id
        (do
          let param ← expectName "parameter name"
          if ← accept (.symbol .comma) then
            return param :: (← parameters depth (count + 1))
          else
            return [param])
        (do
          let param ← expectName "parameter name"
          if ← accept (.symbol .comma) then
            return param :: (← parameters depth' (count + 1))
          else
            return [param]) := by
      refine (alike_expectName _).andThen fun param => (alike_accept _).andThen fun more => ?_
      cases more with
      | false => exact alike_pure id [param]
      | true => exact (ih _).andThen fun others => alike_pure id (param :: others)
    show Alike c _ (parameters (depth + 1) count) (parameters (depth' + 1) count)
    rw [parameters, parameters]
    by_cases hcount : maxArity ≤ count
    · rw [if_pos hcount, if_pos hcount]
      exact (alike_complain _).andThen fun _ => hrest
    · rw [if_neg hcount, if_neg hcount]
      exact hrest

theorem alike_parameterList (h : depth ≤ depth') :
    Alike c id (parameterList depth) (parameterList depth') := by
  refine (alike_sees _).andThen fun empty => ?_
  cases empty with
  | true => exact alike_pure id []
  | false => exact alike_parameters h 0

theorem alike_superclass :
    Alike c (Option.map (Reference.relabel (.up c.ids))) superclass superclass := by
  refine (alike_accept _).andThen fun given => ?_
  cases given with
  | false => exact alike_pure _ none
  | true =>
    refine (alike_expectName _).andThen fun name => alike_freshId.bind fun id => ?_
    exact alike_pure (Option.map (Reference.relabel (.up c.ids))) (Option.some ⟨id, name⟩)

/-- The rules of statements do the same in a context, at the second depth. -/
structure StatementsAlike (c : Context) (depth depth' : Nat) : Prop where
  declaration :
    Alike c (Option.map (Stmt.relabel (.up c.ids))) (declaration depth) (declaration depth')
  declarations : Alike c (Stmt.relabelEach (.up c.ids)) (declarations depth) (declarations depth')
  block : Alike c (Stmt.relabelEach (.up c.ids)) (block depth) (block depth')
  function : ∀ role,
    Alike c (FunctionDecl.relabel (.up c.ids)) (function depth role) (function depth' role)
  methods : Alike c (FunctionDecl.relabelEach (.up c.ids)) (methods depth) (methods depth')
  statement : Alike c (Stmt.relabel (.up c.ids)) (statement depth) (statement depth')

/-- What is tried for a declaration is alike if what it calls is. -/
theorem StatementsAlike.attempt (ih : StatementsAlike c depth depth') (h : depth ≤ depth') :
    Alike c (Stmt.relabel (.up c.ids)) (attempt depth) (attempt depth') := by
  refine alike_kind?.andThen fun kind => ?_
  split
  · refine alike_skip.andThen fun _ => (alike_expectName _).andThen fun name => ?_
    refine alike_superclass.bind fun superclass => ?_
    refine (alike_expectSymbol _ _).andThen fun _ => ih.methods.bind fun methods => ?_
    refine (alike_expectSymbol _ _).andThen fun _ => ?_
    exact alike_pure (Stmt.relabel (.up c.ids)) (.classDecl ⟨name, superclass, methods⟩)
  · refine alike_skip.andThen fun _ => (ih.function _).bind fun function => ?_
    exact alike_pure _ (Stmt.funDecl function)
  · exact alike_skip.andThen fun _ => alike_varDeclaration h
  · exact ih.statement

theorem alike_statements (h : depth ≤ depth') : StatementsAlike c depth depth' := by
  induction depth generalizing depth' with
  | zero =>
    constructor
    case declaration => exact alike_exhausted _ _
    case declarations => exact alike_exhausted _ _
    case block => exact alike_exhausted _ _
    case function => exact fun role => alike_exhausted _ _
    case methods => exact alike_exhausted _ _
    case statement => exact alike_exhausted _ _
  | succ depth ih =>
    obtain ⟨depth', rfl⟩ := Nat.exists_eq_succ_of_ne_zero (Nat.ne_zero_of_lt h)
    have h := Nat.le_of_succ_le_succ h
    have ih := ih h
    constructor
    case declaration =>
      rw [declaration_succ, declaration_succ]
      exact (ih.attempt h).recover
    case declarations =>
      refine (alike_sees _).andThen fun closed => alike_atEnd.andThen fun ended => ?_
      by_cases hdone : (closed || ended) = true
      · rw [if_pos hdone, if_pos hdone]
        exact alike_pure _ []
      · rw [if_neg hdone, if_neg hdone]
        refine ih.declaration.bind fun first => ih.declarations.bind fun others => ?_
        rw [← Stmt.relabelEach_toList]
        exact alike_pure _ _
    case block =>
      refine ih.declarations.bind fun body => ?_
      exact (alike_expectSymbol _ _).andThen fun _ => alike_pure _ body
    case function =>
      intro role
      refine (alike_expectName _).andThen fun name => (alike_expectSymbol _ _).andThen fun _ => ?_
      refine (alike_parameterList h).andThen fun params => ?_
      refine (alike_expectSymbol _ _).andThen fun _ => (alike_expectSymbol _ _).andThen fun _ => ?_
      refine ih.block.bind fun body => ?_
      have hparams : params.map (Name.relabel (.up c.ids)) = params := List.map_id params
      have hfunction : (FunctionDecl.mk name params body).relabel (.up c.ids) =
          ⟨name, params, Stmt.relabelEach (.up c.ids) body⟩ := by
        rw [FunctionDecl.relabel, hparams]
        rfl
      rw [← hfunction]
      exact alike_pure _ _
    case methods =>
      refine (alike_sees _).andThen fun closed => alike_atEnd.andThen fun ended => ?_
      by_cases hdone : (closed || ended) = true
      · rw [if_pos hdone, if_pos hdone]
        exact alike_pure _ []
      · rw [if_neg hdone, if_neg hdone]
        refine (ih.function .method).bind fun first => ih.methods.bind fun others => ?_
        exact alike_pure _ (first :: others)
    case statement =>
      refine alike_peek.andThen fun found => ?_
      split
      · exact alike_skip.andThen fun _ => alike_printStatement h
      · exact alike_skip.andThen fun _ => ih.block.bind fun body => alike_pure _ (Stmt.block body)
      · refine alike_skip.andThen fun _ => (alike_expectSymbol _ _).andThen fun _ => ?_
        refine (alike_expression h).bind fun condition => ?_
        refine (alike_expectSymbol _ _).andThen fun _ => ih.statement.bind fun thenBranch => ?_
        refine (alike_accept _).andThen fun hasElse => ?_
        cases hasElse with
        | false => exact alike_pure _ (Stmt.ifElse condition thenBranch none)
        | true =>
          refine ih.statement.bind fun elseBranch => ?_
          exact alike_pure _ (Stmt.ifElse condition thenBranch (Option.some elseBranch))
      · refine alike_skip.andThen fun _ => (alike_expectSymbol _ _).andThen fun _ => ?_
        refine (alike_expression h).bind fun condition => ?_
        refine (alike_expectSymbol _ _).andThen fun _ => ih.statement.bind fun body => ?_
        exact alike_pure _ (Stmt.whileLoop condition body)
      · refine alike_skip.andThen fun _ => (alike_expectSymbol _ _).andThen fun _ => ?_
        refine (alike_forInitializer h).bind fun initializer => ?_
        refine (alike_optionalBefore h _).bind fun condition => ?_
        refine (alike_expectSymbol _ _).andThen fun _ => ?_
        refine (alike_optionalBefore h _).bind fun increment => ?_
        refine (alike_expectSymbol _ _).andThen fun _ => ih.statement.bind fun body => ?_
        rw [← Stmt.forLoop_relabel]
        exact alike_pure _ _
      · exact alike_skip.andThen fun _ => alike_returnStatement h _
      · exact alike_expressionStatement h

theorem alike_program (h : depth ≤ depth') :
    Alike c (Stmt.relabelEach (.up c.ids)) (program depth) (program depth') := by
  induction depth generalizing depth' with
  | zero => exact alike_exhausted _ _
  | succ depth ih =>
    obtain ⟨depth', rfl⟩ := Nat.exists_eq_succ_of_ne_zero (Nat.ne_zero_of_lt h)
    have h := Nat.le_of_succ_le_succ h
    have ih := ih h
    refine alike_atEnd.andThen fun ended => ?_
    cases ended with
    | true => exact alike_pure _ []
    | false =>
      refine (alike_statements h).declaration.bind fun first => ih.bind fun others => ?_
      rw [← Stmt.relabelEach_toList]
      exact alike_pure _ _

end Reader

end Lox
