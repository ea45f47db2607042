/-
Reading a list of tokens, attempt by attempt.

A program is read by one attempt at a declaration after the other.  An attempt takes a
segment of the tokens; it either reads a declaration or is abandoned at a fault, after
which more tokens are skipped.

* `Reader.MovesOn` — what every reader does with its tokens, given enough depth;
* `Reader.Makes`, `Reader.Attempts` — the attempts a reader of a program makes;
* `Attempt.Fits`, `Attempt.Cut` — what the segment of an attempt may be, and segments
  that make up a list of tokens;
* `Program.read_attempts` — how a program is read.
-/
import Lox.Proofs.Reading.Consumed

namespace Lox

open Grammar

/-! ### Every reader moves on -/

namespace Reader

/-- The reader takes tokens only from the front, or stops at a fault further on. -/
def Follows {α : Type} (reader : Reader α) (s : ReaderState) : Prop :=
  reader.Meets s (fun _ s' => Onward s s') (StopsOnward s)

/-- Every reader takes tokens only from the front and stops, if at all, at a fault further
on; the readers of expressions, statements and declarations take at least one token. -/
structure MovesOn (depth : Nat) (s : ReaderState) : Prop where
  expect (kind : Token.Kind) (what : String) : Proceeds (expect kind what) s
  expectSymbol (symbol : Symbol) (what : String) : Proceeds (expectSymbol symbol what) s
  expectName (what : String) : Proceeds (expectName what) s
  expression : Proceeds (expression depth) s
  assignment : Proceeds (assignment depth) s
  operand (above tiers : List Tier) : above ++ tiers = Tier.all → Proceeds (operand depth tiers) s
  joined (above : List Tier) (tier : Tier) (tiers : List Tier) (left : Expr) :
    above ++ tier :: tiers = Tier.all → Follows (joined depth tier tiers left) s
  unary : Proceeds (unary depth) s
  applied (callee : Expr) : Follows (applied depth callee) s
  arguments (count : Nat) : Proceeds (arguments depth count) s
  primary : Proceeds (primary depth) s
  expressionStatement : Proceeds (expressionStatement depth) s
  printStatement : Proceeds (printStatement depth) s
  returnStatement (line : Nat) : Proceeds (returnStatement depth line) s
  varDeclaration : Proceeds (varDeclaration depth) s
  forInitializer : Proceeds (forInitializer depth) s
  optionalBefore (symbol : Symbol) : Follows (optionalBefore depth symbol) s
  parameters (count : Nat) : Proceeds (parameters depth count) s
  parameterList : Follows (parameterList depth) s
  superclass : Follows superclass s
  block : Proceeds (block depth) s
  function (role : FunctionRole) : Proceeds (function depth role) s
  methods : Follows (methods depth) s
  statement : Proceeds (statement depth) s
  attempt : Proceeds (attempt depth) s
  declaration : (declaration depth).Meets s (fun _ s' => Declares s s') fun _ _ => False
  declarations : (declarations depth).Meets s (fun _ s' => Onward s s') fun _ _ => False
  program : (program depth).Meets s (fun _ s' => Onward s s') fun _ _ => False

theorem movesOn {depth : Nat} {s : ReaderState} (h : depthFor s.tokens ≤ depth) :
    MovesOn depth s := by
  have hdepth : 16 * s.tokens.length + 32 ≤ depth := by
    simp only [depthFor] at h
    omega
  have htiers : ∀ {above tiers : List Tier}, above ++ tiers = Tier.all → tiers.length ≤ 6 :=
    fun hall => List.IsSuffix.length_le ⟨_, hall⟩
  exact {
    expect := fun _ _ => meets_expect_onward (.refl s) fun _ _ h₁ => h₁
    expectSymbol := fun _ _ => meets_expectSymbol_onward (.refl s) fun _ h₁ => h₁
    expectName := fun _ => meets_expectName_onward (.refl s) fun _ _ h₁ => h₁
    expression := assignment_proceeds depth s (by omega)
    assignment := assignment_proceeds depth s (by omega)
    operand := fun _ tiers hall => by
      have hlength := htiers hall
      exact operand_proceeds depth tiers s (by omega)
    joined := fun _ tier tiers left hall => by
      have hlength := htiers hall
      rw [List.length_cons] at hlength
      exact joined_onward depth tier tiers left s (by omega)
    unary := unary_proceeds depth s (by omega)
    applied := fun callee => applied_onward depth callee s (by omega)
    arguments := fun count => arguments_proceeds depth count s (by omega)
    primary := primary_proceeds depth s (by omega)
    expressionStatement := expressionStatement_proceeds (by omega)
    printStatement := printStatement_proceeds (by omega)
    returnStatement := fun _ => returnStatement_proceeds (by omega)
    varDeclaration := varDeclaration_proceeds (by omega)
    forInitializer := forInitializer_proceeds (by omega)
    optionalBefore := fun _ => optionalBefore_onward (by omega)
    parameters := fun count => parameters_proceeds depth count s (by omega)
    parameterList := parameterList_onward (by omega)
    superclass := superclass_onward s
    block := block_proceeds depth s (by omega)
    function := fun role => function_proceeds depth role s (by omega)
    methods := methods_onward depth s (by omega)
    statement := statement_proceeds depth s (by omega)
    attempt := attempt_proceeds (by omega)
    declaration := declaration_proceeds depth s (by omega)
    declarations := declarations_onward depth s (by omega)
    program := program_proceeds depth s (by omega) }

end Reader

/-! ### Attempts -/

/-- How an attempt at a declaration ends: with a statement, or at a fault, after which
tokens are skipped. -/
inductive Ending where
  | read (stmt : Stmt)
  | abandoned (fault : SyntaxFault) (skipped : List Token)

/-- An attempt at a declaration: the tokens it takes, the faults it notes and goes on
after, and how it ends. -/
structure Attempt where
  taken : List Token
  noted : List SyntaxFault
  ending : Ending

namespace Ending

/-- The tokens that are skipped. -/
def skipped : Ending → List Token
  | read _ => []
  | abandoned _ skipped => skipped

/-- The statement that is read, unless the attempt is abandoned. -/
def statement? : Ending → Option Stmt
  | read stmt => some stmt
  | abandoned _ _ => none

/-- The fault at which the attempt is abandoned, unless a statement is read. -/
def fault? : Ending → Option SyntaxFault
  | read _ => none
  | abandoned fault _ => some fault

theorem statement_or_fault (e : Ending) :
    (∃ stmt, e.statement? = some stmt ∧ e.fault? = none) ∨
      ∃ fault, e.statement? = none ∧ e.fault? = some fault := by
  cases e with
  | read stmt => exact .inl ⟨stmt, rfl, rfl⟩
  | abandoned fault skipped => exact .inr ⟨fault, rfl, rfl⟩

/-- What is skipped when these tokens follow: after a fault at a token, all from this token to
the first boundary; after a fault at the end, nothing. -/
def Fits (rest : List Token) : Ending → Prop
  | read _ => True
  | abandoned fault skipped =>
    (∃ token ∈ skipped.head?, fault.found = some token ∧ Skips skipped rest) ∨
      (skipped = [] ∧ Reader.AtEnd rest ∧
        ∀ endLine, (fault.diagnostic endLine).location = .atEnd)

end Ending

namespace Attempt

/-- The tokens an attempt takes and skips. -/
def segment (a : Attempt) : List Token :=
  a.taken ++ a.ending.skipped

/-- The statement an attempt gives. -/
def statement? (a : Attempt) : Option Stmt :=
  a.ending.statement?

/-- The faults of an attempt, that at which it is abandoned being the last. -/
def faults (a : Attempt) : List SyntaxFault :=
  a.noted ++ a.ending.fault?.toList

/-- What an attempt may be when these tokens follow. -/
structure Fits (rest : List Token) (a : Attempt) : Prop where
  nonempty : a.segment ≠ []
  plain : Plain a.segment
  ending : a.ending.Fits rest

/-- The segments make up the tokens up to the end, and each of them is what the tokens
after it let it be. -/
inductive Cut : List Attempt → List Token → Prop
  | nil {rest : List Token} (atEnd : Reader.AtEnd rest) : Cut [] rest
  | cons {a : Attempt} {as : List Attempt} {rest : List Token} (fits : a.Fits rest)
    (others : Cut as rest) : Cut (a :: as) (a.segment ++ rest)

theorem Cut.flatMap_segment {as : List Attempt} {tokens : List Token} (h : Cut as tokens) :
    as.flatMap segment = tokensBeforeEnd tokens := by
  suffices hrest : ∃ rest, tokens = as.flatMap segment ++ rest ∧ Plain (as.flatMap segment) ∧
      Reader.AtEnd rest by
    obtain ⟨rest, rfl, hplain, hend⟩ := hrest
    exact (tokensBeforeEnd_append hplain hend).symm
  induction h with
  | nil atEnd => exact ⟨_, rfl, plain_nil, atEnd⟩
  | cons fits others ih =>
    obtain ⟨rest, rfl, hplain, hend⟩ := ih
    refine ⟨rest, by simp, ?_, hend⟩
    rw [List.flatMap_cons, plain_append]
    exact ⟨fits.plain, hplain⟩

end Attempt

namespace Reader

variable {depth : Nat} {s : ReaderState}

/-- From `s` to `s'` this attempt at a declaration is made. -/
inductive Makes (depth : Nat) (s : ReaderState) : Attempt → ReaderState → Prop
  | read {s' : ReaderState} {stmt : Stmt} {taken : List Token} {noted : List SyntaxFault}
    (run : attempt depth s = .ok stmt s') (tokens : s.tokens = taken ++ s'.tokens)
    (faults : s'.faults = s.faults ++ noted) : Makes depth s ⟨taken, noted, .read stmt⟩ s'
  | abandoned {s₁ : ReaderState} {error : SyntaxError} {taken skipped : List Token}
    {noted : List SyntaxFault} (run : attempt depth s = .error (.fault error) s₁)
    (tokens : s.tokens = taken ++ s₁.tokens) (faults : s₁.faults = s.faults ++ noted)
    (skips : s₁.tokens = skipped ++ resume s₁.tokens) :
    Makes depth s ⟨taken, noted, .abandoned ⟨error, s₁.tokens.head?⟩ skipped⟩
      { s₁ with
        tokens := resume s₁.tokens
        faults := s₁.faults ++ [⟨error, s₁.tokens.head?⟩] }

/-- From `s` to the end these attempts at declarations are made. -/
inductive Attempts : Nat → ReaderState → List Attempt → ReaderState → Prop
  | nil {depth : Nat} {s : ReaderState} (atEnd : AtEnd s.tokens) : Attempts (depth + 1) s [] s
  | cons {depth : Nat} {s s₁ s' : ReaderState} {a : Attempt} {as : List Attempt}
    (more : ¬ AtEnd s.tokens) (first : Makes depth s a s₁)
    (others : Attempts (depth + 1) s₁ as s') : Attempts (depth + 2) s (a :: as) s'

theorem exists_makes (h : 16 * s.tokens.length + 11 ≤ depth) : ∃ a s', Makes depth s a s' := by
  have hproceeds := attempt_proceeds h
  cases hr : attempt depth s with
  | ok stmt s' =>
    have hadvance : Advance s s' := hproceeds.of_ok hr
    obtain ⟨taken, htokens⟩ := hadvance.tokens
    obtain ⟨noted, hfaults⟩ := hadvance.faults
    exact ⟨_, _, .read hr htokens.symm hfaults.symm⟩
  | error stop s₁ =>
    obtain ⟨hstop, honward⟩ := hproceeds.of_error hr
    cases stop with
    | exhausted => exact absurd rfl hstop
    | fault error =>
      obtain ⟨taken, htokens⟩ := honward.tokens
      obtain ⟨noted, hfaults⟩ := honward.faults
      obtain ⟨skipped, hskips⟩ := resume_suffix s₁.tokens
      exact ⟨_, _, .abandoned hr htokens.symm hfaults.symm hskips.symm⟩

namespace Makes

variable {s' : ReaderState} {a : Attempt}

theorem declaration_eq (h : Makes depth s a s') :
    declaration (depth + 1) s = .ok a.statement? s' := by
  rw [declaration_succ, recover]
  cases h with
  | read run tokens faults =>
    rw [run]
    rfl
  | abandoned run tokens faults skips =>
    rw [run]
    rfl

theorem tokens_eq (h : Makes depth s a s') : s.tokens = a.segment ++ s'.tokens := by
  cases h with
  | read run tokens faults => simpa [Attempt.segment, Ending.skipped] using tokens
  | abandoned run tokens faults skips =>
    rw [tokens, Attempt.segment, List.append_assoc]
    exact congrArg _ skips

theorem faults_eq (h : Makes depth s a s') : s'.faults = s.faults ++ a.faults := by
  cases h with
  | read run tokens faults => simpa [Attempt.faults, Ending.fault?] using faults
  | abandoned run tokens faults skips => simp [Attempt.faults, Ending.fault?, faults]

theorem ending_fits (h : Makes depth s a s') : a.ending.Fits s'.tokens := by
  cases h with
  | read run tokens faults => exact trivial
  | @abandoned s₁ error taken skipped noted run tokens faults skips =>
    by_cases hend : AtEnd s₁.tokens
    · -- nothing can be skipped, and the fault has no token or that of the end
      right
      rw [resume_of_atEnd hend] at skips ⊢
      refine ⟨List.self_eq_append_left.mp skips, hend, fun endLine => ?_⟩
      rcases hend with hnil | ⟨token, rest, htokens, hk⟩
      · rw [hnil]
        rfl
      · rw [htokens]
        exact if_pos hk
    · left
      obtain ⟨skipped', hskipped, hskips⟩ := resume_skips hend
      obtain rfl := List.append_cancel_right (skips.symm.trans hskipped)
      obtain ⟨token, others, rfl⟩ := List.exists_cons_of_ne_nil hskips.nonempty
      exact ⟨token, rfl, by rw [skips]; rfl, hskips⟩

theorem length_lt (h : Makes depth s a s') (hdepth : 16 * s.tokens.length + 11 ≤ depth)
    (more : ¬ AtEnd s.tokens) : s'.tokens.length < s.tokens.length := by
  have hdeclares := declaration_proceeds (depth + 1) s (Nat.succ_le_succ hdepth)
  exact (hdeclares.of_ok h.declaration_eq).2 more

theorem fits (h : Makes depth s a s') (hdepth : 16 * s.tokens.length + 11 ≤ depth)
    (more : ¬ AtEnd s.tokens) : a.Fits s'.tokens where
  nonempty hnil := by
    have htokens := h.tokens_eq
    rw [hnil, List.nil_append] at htokens
    exact (Nat.ne_of_gt (h.length_lt hdepth more)) (congrArg List.length htokens)
  plain := by
    have hconsumes := declaration_consumes (depth + 1) s
    obtain ⟨ts, hts, hplain⟩ := hconsumes.of_ok h.declaration_eq
    -- both `ts` and the segment are what stands before the tokens that are left
    rwa [List.append_cancel_right (h.tokens_eq.symm.trans hts)]
  ending := h.ending_fits

end Makes

namespace Attempts

variable {s' : ReaderState} {as : List Attempt}

theorem program_eq (h : Attempts depth s as s') :
    program depth s = .ok (as.filterMap Attempt.statement?) s' := by
  refine Meets.eq_ok ?_
  induction h with
  | nil hend => exact meets_program (fun _ => ⟨rfl, rfl⟩) fun more => absurd hend more
  | @cons depth s s₁ s' a as more first others ih =>
    refine meets_program (fun hend => absurd hend more) fun _ => ?_
    refine meets_of_ok first.declaration_eq (ih.imp fun rest s₂ ⟨hrest, hs₂⟩ => ⟨?_, hs₂⟩)
    rw [hrest]
    cases hstmt : a.statement? <;> simp [hstmt]

theorem faults_eq (h : Attempts depth s as s') :
    s'.faults = s.faults ++ as.flatMap Attempt.faults := by
  induction h with
  | nil hend => exact (List.append_nil _).symm
  | cons more first others ih =>
    rw [ih, first.faults_eq, List.flatMap_cons, List.append_assoc]

theorem cut (h : Attempts depth s as s') (hdepth : 16 * s.tokens.length + 13 ≤ depth) :
    Attempt.Cut as s.tokens := by
  induction h with
  | nil hend => exact .nil hend
  | @cons depth s s₁ s' a as more first others ih =>
    have hlt := first.length_lt (by omega) more
    rw [first.tokens_eq]
    exact .cons (first.fits (by omega) more) (ih (by omega))

end Attempts

/-- Attempts are made up to the end, whatever the tokens are. -/
theorem exists_attempts : ∀ (depth : Nat) (s : ReaderState), 16 * s.tokens.length + 13 ≤ depth →
    ∃ as s', Attempts depth s as s'
  | 0, _, h => absurd h (by omega)
  | 1, _, h => absurd h (by omega)
  | depth + 2, s, h => by
    by_cases hend : AtEnd s.tokens
    · exact ⟨[], s, .nil hend⟩
    · obtain ⟨a, s₁, hfirst⟩ : ∃ a s₁, Makes depth s a s₁ := exists_makes (by omega)
      -- one depth less is enough for the others, since a token is gone
      have hlt := hfirst.length_lt (by omega) hend
      obtain ⟨as, s', hothers⟩ := exists_attempts (depth + 1) s₁ (by omega)
      exact ⟨a :: as, s', .cons hend hfirst hothers⟩

end Reader

namespace Program

/-- Every reader moves on, and reading a program ends after finitely many attempts.  Their
segments make up the tokens before the end; none is empty, and that of an abandoned attempt
stops at the first boundary after the token of its fault.  The attempts that are not
abandoned give the statements, each one, and the others give the faults besides those that
are only noted, each one. -/
theorem read_attempts (n : Nat) (tokens : List Token) :
    (∀ (s : ReaderState) (extra : Nat),
      Reader.MovesOn (Reader.depthFor s.tokens + extra) s) ∧
    ∃ (as : List Attempt) (s' : ReaderState),
      Reader.Attempts (Reader.depthFor tokens) ⟨tokens, n, []⟩ as s' ∧
      Attempt.Cut as tokens ∧
      as.flatMap Attempt.segment = tokensBeforeEnd tokens ∧
      (∀ a ∈ as, (∃ stmt, a.statement? = some stmt ∧ a.ending.fault? = none) ∨
        ∃ fault, a.statement? = none ∧ a.ending.fault? = some fault) ∧
      (read n tokens).program = as.filterMap Attempt.statement? ∧
      (read n tokens).diagnostics = (as.flatMap Attempt.faults).map
        (·.diagnostic ((tokens.getLast?.map Token.line).getD 1)) := by
  refine ⟨fun s extra => Reader.movesOn (Nat.le_add_right _ _), ?_⟩
  have hdepth : 16 * tokens.length + 13 ≤ Reader.depthFor tokens := by
    simp only [Reader.depthFor]
    omega
  obtain ⟨as, s', has⟩ := Reader.exists_attempts (Reader.depthFor tokens) ⟨tokens, n, []⟩ hdepth
  have hcut : Attempt.Cut as tokens := has.cut hdepth
  refine ⟨as, s', has, hcut, hcut.flatMap_segment, fun a _ => a.ending.statement_or_fault, ?_, ?_⟩
  · rw [read, has.program_eq]
  · have hfaults : s'.faults = as.flatMap Attempt.faults := has.faults_eq
    rw [read, has.program_eq, ← hfaults]

end Program

end Lox
