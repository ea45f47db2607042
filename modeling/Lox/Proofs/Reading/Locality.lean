/-
Reading is local to declarations.

A statement or declaration that was read to its end is read alike whatever follows, with
one exception: an `else` may still belong to it.  This holds with all that happened inside
of it, faults and tokens left out included.  So the program of two lists of tokens is that
of the first and that of the second, if all of the first was read.

* `Reader.Closes c f x y` — the action `y` ends in the context `c` as `x` ends alone;
* `Reader.closes_statements`, `Reader.closes_attempt` — statements and declarations;
* `Program.Whole` — no declaration is abandoned;
* `Program.read_append` — one list of tokens after the other.
-/
import Mathlib
import Lox.Proofs.Relabelling.Reading

namespace Lox

open Grammar

namespace Reader

variable {α β γ δ : Type} {c : Context} {s s' : ReaderState} {depth depth' : Nat}

/-- If the first reader ends, it took a token, it noted faults at tokens only, and the
second one does the same in the context unless an `else` follows there. -/
def Closes (c : Context) (f : α → β) (x : Reader α) (y : Reader β) : Prop :=
  ∀ s, x.Meets s
    (fun a s' => s.tokens ≠ [] ∧ Notes s s' ∧
      (¬ (Token.Kind.keyword .else).Starts c.tokens →
        y (s.within c) = .ok (f a) (s'.within c)))
    fun _ _ => True

/-! ### Actions -/

/-- What is read before may not look past the tokens. -/
theorem Alike.closes {f : α → β} {g : γ → δ} {x : Reader α} {y : Reader β} {u : α → Reader γ}
    {v : β → Reader δ} (h : Alike c f x y) (huv : ∀ a, Closes c g (u a) (v (f a))) :
    Closes c g (x >>= u) (y >>= v) := by
  refine fun s => Meets.bind ((h s).mono ?_ fun _ _ _ => trivial)
  intro a s₁ ⟨hpass, hy⟩
  refine (huv a s₁).imp fun b s₂ ⟨hleft, hnotes, hv⟩ => ?_
  refine ⟨hleft ∘ hpass.tokens, (hpass.notes hleft).trans hnotes, fun helse => ?_⟩
  exact (bind_ok (hy (.inl hleft))).trans (hv helse)

theorem Closes.returning {f : α → β} {g : γ → δ} {x : Reader α} {y : Reader β} {u : α → γ}
    {v : β → δ} (h : Closes c f x y) (huv : ∀ a, v (f a) = g (u a)) :
    Closes c g (x >>= fun a => pure (u a)) (y >>= fun b => pure (v b)) := by
  refine fun s => Meets.bind ((h s).imp fun a s₁ ⟨hleft, hnotes, hy⟩ => meets_pure ?_)
  refine ⟨hleft, hnotes, fun helse => ?_⟩
  rw [bind_ok (hy helse), huv a]
  rfl

theorem closes_expect (kind : Token.Kind) (what : String) :
    Closes c id (expect kind what) (expect kind what) := by
  -- Whatever follows, the token that it ends with is there.
  refine fun s => meets_expect (fun token rest hs hk => ?_) fun _ => trivial
  refine ⟨by rw [hs]; exact List.cons_ne_nil _ _, .none rfl, fun _ => Meets.eq_ok ?_⟩
  rw [ReaderState.within, hs]
  exact meets_expect_cons hk ⟨rfl, rfl⟩

theorem closes_expectSymbol (symbol : Symbol) (what : String) :
    Closes c id (expectSymbol symbol what) (expectSymbol symbol what) :=
  (closes_expect _ what).returning fun _ => rfl

/-- The one place where a reader that took all it needs looks further: for an `else`. -/
theorem Closes.orElse {f : α → β} {g : γ → δ} {x : Reader α} {y : Reader β}
    {u : α → Bool → Reader γ} {v : β → Bool → Reader δ} {ended : α → γ} (h : Closes c f x y)
    (taken : ∀ a, Closes c g (u a true) (v (f a) true))
    (left : ∀ a, u a false = pure (ended a) ∧ v (f a) false = pure (g (ended a))) :
    Closes c g (x >>= fun a => accept (.keyword .else) >>= u a)
      (y >>= fun b => accept (.keyword .else) >>= v b) := by
  refine fun s => Meets.bind ((h s).imp fun a s₁ ⟨hleft, hnotes, hy⟩ => Meets.bind ?_)
  refine meets_accept (fun token rest hs hk => ?_) fun hnot => ?_
  · refine (taken a _).imp fun b s₂ ⟨_, hnotes', hv⟩ => ?_
    refine ⟨hleft, hnotes.trans hnotes', fun helse => ?_⟩
    have haccept : accept (.keyword .else) (s₁.within c) =
        .ok true (ReaderState.within c { s₁ with tokens := rest }) := by
      have htokens : (s₁.within c).tokens = token :: (rest ++ c.tokens) := by
        rw [ReaderState.within, hs]
        rfl
      refine Meets.eq_ok (meets_accept ?_ fun hnot => absurd ⟨token, _, htokens, hk⟩ hnot)
      intro token' rest' hs' _
      cases htokens.symm.trans hs'
      exact ⟨rfl, rfl⟩
    rw [bind_ok (hy helse), bind_ok haccept]
    exact hv helse
  · rw [(left a).1]
    refine meets_pure ⟨hleft, hnotes, fun helse => ?_⟩
    -- Without a token left, the next one is the first that follows, and by assumption no
    -- `else` either.
    have hnot' : ¬ (Token.Kind.keyword .else).Starts (s₁.within c).tokens := by
      rintro ⟨token, rest, hs, hk⟩
      rw [ReaderState.within] at hs
      rcases List.append_eq_cons_iff.mp hs with ⟨-, hs⟩ | ⟨rest', hs, -⟩
      · exact helse ⟨token, rest, hs, hk⟩
      · exact hnot ⟨token, rest', hs, hk⟩
    have haccept : accept (.keyword .else) (s₁.within c) = .ok false (s₁.within c) :=
      Meets.eq_ok (meets_accept (fun token rest hs hk => absurd ⟨token, rest, hs, hk⟩ hnot')
        fun _ => ⟨rfl, rfl⟩)
    rw [bind_ok (hy helse), bind_ok haccept, (left a).2]
    rfl

/-! ### Statements -/

theorem closes_returnStatement (h : depth ≤ depth') (line : Nat) :
    Closes c (Stmt.relabel (.up c.ids)) (returnStatement depth line)
      (returnStatement depth' line) := by
  refine (alike_sees _).closes fun missing => ?_
  have hclose : ∀ value, Closes c (Stmt.relabel (.up c.ids))
      (expectSymbol .semicolon "';' after return value" >>= fun _ =>
        pure (.returnValue line value))
      (expectSymbol .semicolon "';' after return value" >>= fun _ =>
        pure (.returnValue line (value.map (Expr.relabel (.up c.ids))))) := by
    intro value
    refine (closes_expectSymbol _ _).returning fun _ => ?_
    cases value <;> rfl
  cases missing with
  | true => exact (alike_pure (Option.map (Expr.relabel (.up c.ids))) none).closes hclose
  | false => exact (alike_expression h).some.closes hclose

theorem closes_expressionStatement (h : depth ≤ depth') :
    Closes c (Stmt.relabel (.up c.ids)) (expressionStatement depth) (expressionStatement depth') :=
  (alike_expression h).closes fun _ => (closes_expectSymbol _ _).returning fun _ => rfl

theorem closes_printStatement (h : depth ≤ depth') :
    Closes c (Stmt.relabel (.up c.ids)) (printStatement depth) (printStatement depth') :=
  (alike_expression h).closes fun _ => (closes_expectSymbol _ _).returning fun _ => rfl

theorem closes_varDeclaration (h : depth ≤ depth') :
    Closes c (Stmt.relabel (.up c.ids)) (varDeclaration depth) (varDeclaration depth') := by
  refine (alike_expectName _).closes fun name => (alike_accept _).closes fun given => ?_
  have hclose : ∀ value, Closes c (Stmt.relabel (.up c.ids))
      (expectSymbol .semicolon "';' after variable declaration" >>= fun _ =>
        pure (.varDecl name value))
      (expectSymbol .semicolon "';' after variable declaration" >>= fun _ =>
        pure (.varDecl name (value.map (Expr.relabel (.up c.ids))))) := by
    intro value
    refine (closes_expectSymbol _ _).returning fun _ => ?_
    cases value <;> rfl
  cases given with
  | true => exact (alike_expression h).some.closes hclose
  | false => exact (alike_pure (Option.map (Expr.relabel (.up c.ids))) none).closes hclose

/-- The rules that end with a token of their own. -/
structure StatementsClose (c : Context) (depth depth' : Nat) : Prop where
  block : Closes c (Stmt.relabelEach (.up c.ids)) (block depth) (block depth')
  function : ∀ role,
    Closes c (FunctionDecl.relabel (.up c.ids)) (function depth role) (function depth' role)
  statement : Closes c (Stmt.relabel (.up c.ids)) (statement depth) (statement depth')

theorem closes_statements (h : depth ≤ depth') : StatementsClose c depth depth' := by
  induction depth generalizing depth' with
  | zero =>
    constructor
    case block => exact fun s => trivial
    case function => exact fun role s => trivial
    case statement => exact fun s => trivial
  | succ depth ih =>
    obtain ⟨depth', rfl⟩ := Nat.exists_eq_succ_of_ne_zero (Nat.ne_zero_of_lt h)
    have h := Nat.le_of_succ_le_succ h
    have ih := ih h
    constructor
    case block =>
      refine (alike_statements h).declarations.closes fun body => ?_
      exact (closes_expectSymbol _ _).returning fun _ => rfl
    case function =>
      intro role
      refine (alike_expectName _).closes fun name => (alike_expectSymbol _ _).closes fun _ => ?_
      refine (alike_parameterList h).closes fun params => ?_
      refine (alike_expectSymbol _ _).closes fun _ => (alike_expectSymbol _ _).closes fun _ => ?_
      have hparams : params.map (Name.relabel (.up c.ids)) = params := List.map_id params
      refine ih.block.returning fun body => ?_
      rw [FunctionDecl.relabel, hparams]
      rfl
    case statement =>
      refine alike_peek.closes fun found => ?_
      rw [id_eq]
      split
      · exact alike_skip.closes fun _ => closes_printStatement h
      · exact alike_skip.closes fun _ => ih.block.returning fun _ => rfl
      · refine alike_skip.closes fun _ => (alike_expectSymbol _ _).closes fun _ => ?_
        refine (alike_expression h).closes fun condition => ?_
        refine (alike_expectSymbol _ _).closes fun _ => ?_
        refine ih.statement.orElse (fun thenBranch => ?_) fun thenBranch => ⟨rfl, rfl⟩
        exact ih.statement.returning fun elseBranch => rfl
      · refine alike_skip.closes fun _ => (alike_expectSymbol _ _).closes fun _ => ?_
        refine (alike_expression h).closes fun condition => ?_
        exact (alike_expectSymbol _ _).closes fun _ => ih.statement.returning fun _ => rfl
      · refine alike_skip.closes fun _ => (alike_expectSymbol _ _).closes fun _ => ?_
        refine (alike_forInitializer h).closes fun initializer => ?_
        refine (alike_optionalBefore h _).closes fun condition => ?_
        refine (alike_expectSymbol _ _).closes fun _ => ?_
        refine (alike_optionalBefore h _).closes fun increment => ?_
        refine (alike_expectSymbol _ _).closes fun _ => ih.statement.returning fun body => ?_
        exact (Stmt.forLoop_relabel ..).symm
      · exact alike_skip.closes fun _ => closes_returnStatement h _
      · exact closes_expressionStatement h

/-- A declaration that was read ends where it does, whatever follows but an `else`. -/
theorem closes_attempt (h : depth ≤ depth') :
    Closes c (Stmt.relabel (.up c.ids)) (attempt depth) (attempt depth') := by
  refine alike_kind?.closes fun kind => ?_
  rw [id_eq]
  split
  · refine alike_skip.closes fun _ => (alike_expectName _).closes fun name => ?_
    refine alike_superclass.closes fun superclass => (alike_expectSymbol _ _).closes fun _ => ?_
    refine (alike_statements h).methods.closes fun methods => ?_
    exact (closes_expectSymbol _ _).returning fun _ => rfl
  · exact alike_skip.closes fun _ => ((closes_statements h).function _).returning fun _ => rfl
  · exact alike_skip.closes fun _ => closes_varDeclaration h
  · exact (closes_statements h).statement

/-! ### Programs -/

/-- If no declaration is abandoned, the tokens are read alike whatever follows them, down to
where reading goes on with what follows. -/
theorem Attempts.within {as : List Attempt} (h : Attempts depth s as s')
    (hread : ∀ a ∈ as, a.ending.fault? = none) (hplain : Plain s.tokens)
    (hdepth : depthFor s.tokens ≤ depth) (helse : ¬ (Token.Kind.keyword .else).Starts c.tokens)
    (extra : Nat) :
    s'.tokens = [] ∧ Notes s s' ∧ ∃ depth₁, depthFor [] + extra ≤ depth₁ ∧
      ∀ {others t}, program depth₁ (s'.within c) = .ok others t →
        program (depth + extra) (s.within c) =
          .ok (Stmt.relabelEach (.up c.ids) (as.filterMap Attempt.statement?) ++ others) t := by
  induction h with
  | @nil depth s hend =>
    have htokens : s.tokens = [] := by
      rcases hend with hnil | ⟨token, rest, hs, hk⟩
      · exact hnil
      · exact absurd hk (hplain token (hs ▸ List.mem_cons_self))
    rw [htokens] at hdepth
    exact ⟨htokens, .none rfl, depth + 1 + extra, Nat.add_le_add_right hdepth extra, id⟩
  | @cons depth s s₁ s' a as more first others ih =>
    -- Every declaration takes a token, so the depth is enough for the others.
    have hlt : s₁.tokens.length < s.tokens.length := by
      refine first.length_lt ?_ more
      simp only [depthFor] at hdepth
      omega
    have htokens := first.tokens_eq
    have hplain₁ : Plain s₁.tokens := fun token hmem =>
      hplain token (htokens ▸ List.mem_append_right _ hmem)
    have hdepth₁ : depthFor s₁.tokens ≤ depth + 1 := by
      simp only [depthFor] at hdepth ⊢
      omega
    obtain ⟨hnil, hnotes, depth₁, hextra, hothers⟩ :=
      ih (fun a hmem => hread a (List.mem_cons_of_mem _ hmem)) hplain₁ hdepth₁
    cases first with
    | abandoned run tokens faults skips => cases hread _ List.mem_cons_self
    | @read _ stmt taken noted run tokens faults =>
      obtain ⟨hne, hnotes₁, hattempt⟩ :=
        (closes_attempt (Nat.le_add_right depth extra) s).of_ok run
      refine ⟨hnil, hnotes₁.trans hnotes, depth₁, hextra, fun hrest => ?_⟩
      have hmore : ¬ AtEnd (s.within c).tokens := by
        obtain ⟨token, rest, hs⟩ := List.exists_cons_of_ne_nil hne
        rw [ReaderState.within, hs]
        rw [hs] at more
        rintro (hnil | hstarts)
        · cases hnil
        · exact more (.inr (Token.Kind.starts_cons.mpr (Token.Kind.starts_cons.mp hstarts)))
      have hdeclaration : declaration (depth + 1 + extra) (s.within c) =
          .ok (some (stmt.relabel (.up c.ids))) (s₁.within c) := by
        rw [Nat.add_right_comm, declaration_succ, recover, hattempt helse]
      rw [Nat.add_right_comm (depth + 1) 1 extra]
      refine Meets.eq_ok (meets_program (fun hend => absurd hend hmore) fun _ => ?_)
      exact meets_of_ok hdeclaration (meets_of_ok (hothers hrest) ⟨rfl, rfl⟩)

end Reader

namespace Program

/-- The tokens are read without abandoning a declaration.  Tokens may still have been left out
inside of one, and faults noted. -/
def Whole (n : Nat) (tokens : List Token) : Prop :=
  ∃ as s', Reader.Attempts (Reader.depthFor tokens) ⟨tokens, n, []⟩ as s' ∧
    ∀ a ∈ as, a.ending.fault? = none

/-- The line on which a fault after the last token is put. -/
def endLine (tokens : List Token) : Nat :=
  (tokens.getLast?.map Token.line).getD 1

theorem read_eq {n : Nat} {tokens : List Token} {p : Program} {s : ReaderState}
    (h : Reader.program (Reader.depthFor tokens) ⟨tokens, n, []⟩ = .ok p s) :
    read n tokens = ⟨p, s.faults.map (·.diagnostic (endLine tokens)), s.nextId⟩ := by
  rw [read, h]
  rfl

theorem relabel_read_zero (n : Nat) (tokens : List Token) :
    (read n tokens).program.relabel (.up 0) = (read n tokens).program :=
  (congrArg Reading.program (read_up 0 n tokens)).symm

/-- The diagnostics of faults at tokens do not depend on where the tokens end. -/
theorem diagnostics_of_found {faults : List SyntaxFault} (h : ∀ fault ∈ faults, fault.found ≠ none)
    (line line' : Nat) : faults.map (·.diagnostic line) = faults.map (·.diagnostic line') := by
  refine List.map_congr_left fun fault hmem => ?_
  obtain ⟨token, htoken⟩ := Option.ne_none_iff_exists'.mp (h fault hmem)
  rw [SyntaxFault.diagnostic, SyntaxFault.diagnostic, htoken]

/-- Reading is local to declarations.  If the tokens of the first list are read without
abandoning a declaration, and the second list does not start with an `else`, then both lists
together are read as the first one, and then as the second one from the ids that are left:
the statements of the one are followed by those of the other, and so are the diagnostics. -/
theorem read_append (n : Nat) {first second : List Token} (hplain : Plain first)
    (hwhole : Whole n first) (helse : ¬ (Token.Kind.keyword .else).Starts second) :
    let before := read n first
    let after := read before.nextId second
    read n (first ++ second) =
      { program := before.program ++ after.program
        diagnostics := before.diagnostics ++ after.diagnostics
        nextId := after.nextId } := by
  intro before after
  by_cases hnone : second = []
  · subst hnone
    have hafter : after = ⟨[], [], before.nextId⟩ := rfl
    rw [hafter, List.append_nil, List.append_nil, List.append_nil]
  obtain ⟨as, s', has, hread⟩ := hwhole
  obtain ⟨hnil, ⟨noted, hnoted, hfound⟩, depth₁, hdepth₁, hwithin⟩ :=
    has.within (c := ⟨0, [], second⟩) hread hplain (Nat.le_refl _) helse (16 * second.length)
  rw [List.nil_append] at hnoted
  have hdepth : Reader.depthFor second ≤ depth₁ := by
    simp only [Reader.depthFor, List.length_nil] at hdepth₁ ⊢
    omega
  obtain ⟨p, t, hsecond, hlater⟩ := Reader.program_within 0 s'.faults
    (s := ⟨second, s'.nextId, []⟩) hdepth
  -- where the first list ends is where the second one starts, but for the faults before it
  have hseam : (⟨second, s'.nextId, []⟩ : ReaderState).within ⟨0, s'.faults, []⟩ =
      s'.within ⟨0, [], second⟩ := by
    simp only [ReaderState.within, hnil, List.append_nil, List.nil_append]
  have hboth := hwithin (hseam ▸ hlater)
  have hlength : Reader.depthFor first + 16 * second.length =
      Reader.depthFor (first ++ second) := by
    simp only [Reader.depthFor, List.length_append]
    omega
  rw [hlength] at hboth
  have hbefore : before = ⟨as.filterMap Attempt.statement?,
      s'.faults.map (·.diagnostic (endLine first)), s'.nextId⟩ := read_eq has.program_eq
  have hafter : after = ⟨p, t.faults.map (·.diagnostic (endLine second)), t.nextId⟩ := by
    have hread := read_eq hsecond
    rwa [show s'.nextId = before.nextId by rw [hbefore]] at hread
  have hprogram : before.program ++ after.program =
      before.program.relabel (.up 0) ++ after.program.relabel (.up 0) := by
    rw [relabel_read_zero n first, relabel_read_zero before.nextId second]
  have hend : endLine (first ++ second) = endLine second := by
    rw [endLine, List.getLast?_append, List.getLast?_eq_some_getLast hnone, Option.some_or, endLine,
      List.getLast?_eq_some_getLast hnone]
  have hdiagnostics : s'.faults.map (·.diagnostic (endLine second)) =
      s'.faults.map (·.diagnostic (endLine first)) := by
    rw [hnoted]
    exact diagnostics_of_found hfound _ _
  rw [hprogram]
  refine (read_eq hboth).trans ?_
  rw [hbefore, hafter, hend]
  dsimp only [ReaderState.within]
  rw [List.map_append, hdiagnostics]
  rfl

/-- A block out of which tokens were left, a fault that was only noted, and then tokens that
do not fit. -/
theorem read_append_recovered :
    let first : List Token :=
      [.symbol .leftBrace, .keyword .nil, .keyword .nil, .symbol .semicolon, .keyword .print,
        .keyword .nil, .symbol .semicolon, .symbol .rightBrace, .keyword .nil, .symbol .equal,
        .identifier, .symbol .semicolon].map fun kind => ⟨kind, "a", 1⟩
    let second : List Token :=
      [.symbol .rightParen, .identifier, .symbol .semicolon, .identifier].map fun kind =>
        ⟨kind, "b", 2⟩
    (Plain first ∧ Whole 0 first ∧ ¬ (Token.Kind.keyword .else).Starts second) ∧
      read 0 (first ++ second) =
        { program := (read 0 first).program ++ (read (read 0 first).nextId second).program
          diagnostics := (read 0 first).diagnostics ++
            (read (read 0 first).nextId second).diagnostics
          nextId := (read (read 0 first).nextId second).nextId } := by
  intro first second
  have hplain : Plain first := by
    unfold Plain
    decide
  have helse : ¬ (Token.Kind.keyword .else).Starts second := by
    rw [Token.Kind.starts_iff]
    decide
  let missing : SyntaxFault :=
    ⟨.expected "';' after expression", some ⟨.keyword .nil, "a", 1⟩⟩
  let target : SyntaxFault := ⟨.invalidAssignmentTarget, some ⟨.symbol .equal, "a", 1⟩⟩
  have hblock : Reader.attempt 222 ⟨first, 0, []⟩ =
      .ok (.block [.print (.literal .nil)]) ⟨first.drop 8, 0, [missing]⟩ := by cbv
  have hassignment : Reader.attempt 221 ⟨first.drop 8, 0, [missing]⟩ =
      .ok (.expression (.literal .nil)) ⟨[], 1, [missing, target]⟩ := by cbv
  have hmore : ∀ {kind : Token.Kind} {rest : List Token}, kind ≠ .endOfFile →
      ¬ Reader.AtEnd (⟨kind, "a", 1⟩ :: rest) := by
    rintro kind rest hkind (hnil | hstarts)
    · cases hnil
    · exact hkind (Token.Kind.starts_cons.mp hstarts)
  have hattempts : Reader.Attempts (Reader.depthFor first) ⟨first, 0, []⟩
      [⟨first.take 8, [missing], .read (.block [.print (.literal .nil)])⟩,
        ⟨first.drop 8, [target], .read (.expression (.literal .nil))⟩]
      ⟨[], 1, [missing, target]⟩ :=
    .cons (hmore (by decide)) (.read hblock rfl rfl) <|
      .cons (hmore (by decide)) (.read hassignment rfl rfl) (.nil (.inl rfl))
  have hwhole : Whole 0 first := ⟨_, _, hattempts, by simp [Ending.fault?]⟩
  exact ⟨⟨hplain, hwhole, helse⟩, read_append 0 hplain hwhole helse⟩

end Program

end Lox
