/-
What is read without a fault is derived by the grammar.

A state is clean when no fault was noted.  `Reader.Took P s a s'` says that, if the
reading ended clean, then it started clean and the tokens between `s` and `s'` are
a phrase `P` with the tree `a`.  Every reader takes a phrase of its own rule:

* `assignment_took` ... `primary_took` — expressions;
* `declaration_took` ... `statement_took` — declarations and statements;
* `program_took` — whole programs.
-/
import Lox.Proofs.Reading.Grammar
import Lox.Proofs.Reading.StatementRules

namespace Lox.Reader

open Grammar

/-- The stop of a reader about whose stops nothing is claimed. -/
def anyStop (_ : Stop) (_ : ReaderState) : Prop :=
  True

/-- The tokens from `s` to `s'` are a phrase `P` with the tree `a`, unless a fault
was noted. -/
def Took {α : Type} (P : List Token → α → Prop) (s : ReaderState) (a : α) (s' : ReaderState) :
    Prop :=
  s'.faults = [] → s.faults = [] ∧ ∃ ts, s.tokens = ts ++ s'.tokens ∧ P ts a

theorem counted_clean {s : ReaderState} {what : String} {count : Nat}
    (h : (ReaderState.counted s what count).faults = []) : s.faults = [] ∧ count < maxArity := by
  unfold ReaderState.counted at h
  split at h
  · exact absurd h (by simp)
  · exact ⟨h, by omega⟩

/-! ### Targets of assignments -/

/-- An operand whose tree does not join two operands is a call. -/
theorem call_of_operand {levels : List Level} {ts : List Token} {e : Expr}
    (h : Operand levels ts e) (hjoin : ∀ left line right (c : Connective), e ≠ c.join left line right)
    (hunary : ∀ op line operand, e ≠ .unary op line operand) : Call ts e := by
  induction levels with
  | nil =>
    cases h with
    | unary h =>
      cases h with
      | operator hop h => exact absurd rfl (hunary _ _ _)
      | call h => exact h
  | cons level tighter ih =>
    cases h with
    | tighter h => exact ih h
    | join hleft hright hop =>
      obtain ⟨connective, -, hjoined⟩ := join_iff.mp hop
      exact absurd hjoined (hjoin _ _ _ _)

theorem variable_of_operand {levels : List Level} {ts : List Token} {target : Reference}
    (h : Operand levels ts (.varRef target)) :
    ∃ token : Token, ts = [token] ∧ token.kind = .identifier ∧ target.name = token.name := by
  have hc := call_of_operand h (by rintro _ _ _ (_ | _) ⟨⟩) (by rintro _ _ _ ⟨⟩)
  cases hc with
  | primary hp =>
    cases hp with
    | name hk => exact ⟨_, rfl, hk, rfl⟩

theorem property_of_operand {levels : List Level} {ts : List Token} {object : Expr} {name : Name}
    (h : Operand levels ts (.get object name)) :
    ∃ (os : List Token) (dot token : Token), ts = os ++ [dot, token] ∧ Call os object ∧
      dot.kind = .symbol .dot ∧ token.kind = .identifier ∧ name = token.name := by
  have hc := call_of_operand h (by rintro _ _ _ (_ | _) ⟨⟩) (by rintro _ _ _ ⟨⟩)
  cases hc with
  | primary hp => cases hp
  | property hobject hdot hname => exact ⟨_, _, _, rfl, hobject, hdot, hname, rfl⟩

/-- The tree of an assignment, or a fault for a target that is none. -/
theorem assigned_took {s s₁ s₂ : ReaderState} {equals : Token} {rest : List Token}
    {target value : Expr} (htarget : Took (Operand levels) s target s₁)
    (hs : s₁.tokens = equals :: rest) (hk : equals.kind = .symbol .equal)
    (hvalue : Took Assignment { s₁ with tokens := rest } value s₂) :
    Assigned (fun e s' => Took Assignment s e s') equals target value s₂ := by
  cases target with
  | varRef reference =>
    intro clean
    obtain ⟨clean₁, us, hus, hv⟩ := hvalue clean
    obtain ⟨clean₀, ts, hts, ht⟩ := htarget clean₁
    obtain ⟨token, rfl, hident, hname⟩ := variable_of_operand ht
    refine ⟨clean₀, token :: equals :: us, ?_, ?_⟩
    · rw [hts, hs, show rest = us ++ s₂.tokens from hus]
      simp
    · obtain ⟨id, name⟩ := reference
      simp only at hname
      subst hname
      exact .toVariable hident hk hv
  | get object name =>
    intro clean
    obtain ⟨clean₁, us, hus, hv⟩ := hvalue clean
    obtain ⟨clean₀, ts, hts, ht⟩ := htarget clean₁
    obtain ⟨os, dot, token, rfl, hobject, hdot, hident, rfl⟩ := property_of_operand ht
    refine ⟨clean₀, os ++ dot :: token :: equals :: us, ?_, ?_⟩
    · rw [hts, hs, show rest = us ++ s₂.tokens from hus]
      simp
    · exact .toProperty hobject hdot hident hk hv
  | _ => exact fun clean => absurd clean (by simp [badTarget])

/-! ### Expressions -/

/-- What an arguments list owes to its length. -/
def ArgumentsFrom (count : Nat) (ts : List Token) (es : List Expr) : Prop :=
  Arguments ts es ∧ es ≠ [] ∧ count + es.length ≤ maxArity

mutual

theorem assignment_took : ∀ (depth : Nat) (s : ReaderState),
    (assignment depth).Meets s (Took Assignment s) anyStop
  | 0, _ => meets_exhausted trivial
  | depth + 1, s => by
    refine meets_assignment ((operand_took depth levels s).imp fun target s₁ htarget => ⟨?_, ?_⟩)
    · intro equals rest hs hk
      exact (assignment_took depth _).imp fun value s₂ hvalue =>
        assigned_took htarget hs hk hvalue
    · intro _ clean
      obtain ⟨clean₀, ts, hts, ht⟩ := htarget clean
      exact ⟨clean₀, ts, hts, .operand ht⟩

theorem operand_took : ∀ (depth : Nat) (levels : List Level) (s : ReaderState),
    (operand depth (levels.map Level.tier)).Meets s (Took (Operand levels) s) anyStop
  | 0, levels, s => by
    rw [operand]
    exact meets_exhausted trivial
  | depth + 1, [], s => by
    refine meets_operand_nil ((unary_took depth s).imp fun e s₁ h clean => ?_)
    obtain ⟨clean₀, ts, hts, ht⟩ := h clean
    exact ⟨clean₀, ts, hts, .unary ht⟩
  | depth + 1, level :: tighter, s => by
    refine meets_operand_cons ((operand_took depth tighter s).imp fun left s₁ hleft => ?_)
    refine (joined_took depth level tighter left s₁).imp fun e s₂ hjoined clean => ?_
    obtain ⟨clean₁, us, hus, hjoin⟩ := hjoined clean
    obtain ⟨clean₀, ts, hts, ht⟩ := hleft clean₁
    exact ⟨clean₀, ts ++ us, by rw [hts, hus, List.append_assoc], hjoin ts (.tighter ht)⟩

/-- What is joined to a left operand extends every derivation of it. -/
theorem joined_took : ∀ (depth : Nat) (level : Level) (tighter : List Level) (left : Expr)
    (s : ReaderState), (joined depth level.tier (tighter.map Level.tier) left).Meets s
      (Took (fun ts e => ∀ ls, Operand (level :: tighter) ls left →
        Operand (level :: tighter) (ls ++ ts) e) s) anyStop
  | 0, level, tighter, left, s => by
    rw [joined]
    exact meets_exhausted trivial
  | depth + 1, level, tighter, left, s => by
    refine meets_joined ?_ ?_
    · intro op rest connective hs hop
      refine (operand_took depth tighter _).imp fun right s₁ hright => ?_
      refine (joined_took depth level tighter _ s₁).imp fun e s₂ hjoined clean => ?_
      obtain ⟨clean₁, vs, hvs, hjoin⟩ := hjoined clean
      obtain ⟨clean₀, us, hus, hu⟩ := hright clean₁
      refine ⟨clean₀, op :: us ++ vs, ?_, fun ls hl => ?_⟩
      · rw [hs, show rest = us ++ s₁.tokens from hus, hvs]
        simp
      · have h := hjoin _ (.join hl hu (join_iff.mpr ⟨connective, hop, rfl⟩))
        rwa [List.append_assoc] at h
    · exact fun _ clean => ⟨clean, [], rfl, fun ls hl => by rwa [List.append_nil]⟩

theorem unary_took : ∀ (depth : Nat) (s : ReaderState),
    (unary depth).Meets s (Took Unary s) anyStop
  | 0, s => by
    rw [unary]
    exact meets_exhausted trivial
  | depth + 1, s => by
    refine meets_unary ?_ ?_
    · intro token rest op hs hop
      refine (unary_took depth _).imp fun operand s₁ hoperand clean => ?_
      obtain ⟨clean₀, ts, hts, ht⟩ := hoperand clean
      refine ⟨clean₀, token :: ts, ?_, .operator (sign_iff.mpr hop) ht⟩
      rw [hs, show rest = ts ++ s₁.tokens from hts, List.cons_append]
    · intro _
      refine (primary_took depth s).imp fun callee s₁ hcallee => ?_
      refine (applied_took depth callee s₁).imp fun e s₂ happlied clean => ?_
      obtain ⟨clean₁, us, hus, happly⟩ := happlied clean
      obtain ⟨clean₀, ts, hts, ht⟩ := hcallee clean₁
      exact ⟨clean₀, ts ++ us, by rw [hts, hus, List.append_assoc],
        .call (happly ts (.primary ht))⟩

/-- What is applied to a callee extends every derivation of it. -/
theorem applied_took : ∀ (depth : Nat) (callee : Expr) (s : ReaderState),
    (applied depth callee).Meets s
      (Took (fun ts e => ∀ cs, Call cs callee → Call (cs ++ ts) e) s) anyStop
  | 0, callee, s => by
    rw [applied]
    exact meets_exhausted trivial
  | depth + 1, callee, s => by
    refine meets_applied ?_ ?_ ?_ ?_
    · intro opening rest hs hopening closing rest' hr hclosing
      refine (applied_took depth _ _).imp fun e s₁ happlied clean => ?_
      obtain ⟨clean₀, vs, hvs, happly⟩ := happlied clean
      refine ⟨clean₀, opening :: closing :: vs, ?_, fun cs hc => ?_⟩
      · rw [hs, hr, show rest' = vs ++ s₁.tokens from hvs]
        simp
      · have h := happly _ (.call hc hopening .none (by simp) hclosing)
        simpa using h
    · intro opening rest hs hopening _
      refine (arguments_took depth 0 _).imp fun arguments s₁ harguments => ?_
      refine meets_expect ?_ fun _ => trivial
      intro closing rest' hs₁ hclosing
      refine (applied_took depth _ _).imp fun e s₂ happlied clean => ?_
      obtain ⟨clean₁, vs, hvs, happly⟩ := happlied clean
      obtain ⟨clean₀, us, hus, hu, -, hcount⟩ := harguments clean₁
      refine ⟨clean₀, opening :: (us ++ closing :: vs), ?_, fun cs hc => ?_⟩
      · rw [hs, show rest = us ++ s₁.tokens from hus, hs₁,
          show rest' = vs ++ s₂.tokens from hvs]
        simp
      · rw [maxArity_eq, Nat.zero_add] at hcount
        have h := happly _ (.call hc hopening hu hcount hclosing)
        simpa using h
    · intro dot rest hs hdot
      refine meets_expectName ?_ fun _ => trivial
      intro name rest' hs₁ hname
      refine (applied_took depth _ _).imp fun e s₂ happlied clean => ?_
      obtain ⟨clean₀, vs, hvs, happly⟩ := happlied clean
      refine ⟨clean₀, dot :: name :: vs, ?_, fun cs hc => ?_⟩
      · rw [hs, show rest = name :: rest' from hs₁, show rest' = vs ++ s₂.tokens from hvs]
        simp
      · have h := happly _ (.property hc hdot hname)
        simpa using h
    · exact fun _ clean => ⟨clean, [], rfl, fun cs hc => by rwa [List.append_nil]⟩

theorem arguments_took : ∀ (depth count : Nat) (s : ReaderState),
    (arguments depth count).Meets s (Took (ArgumentsFrom count) s) anyStop
  | 0, count, s => by
    rw [arguments]
    exact meets_exhausted trivial
  | depth + 1, count, s => by
    refine meets_arguments ((assignment_took depth _).imp fun argument s₁ hargument => ⟨?_, ?_⟩)
    · intro comma rest hs hcomma
      refine (arguments_took depth (count + 1) _).imp fun others s₂ hothers clean => ?_
      obtain ⟨clean₁, us, hus, hu, hne, hlength⟩ := hothers clean
      obtain ⟨clean₀, ts, hts, ht⟩ := hargument clean₁
      obtain ⟨clean', hlt⟩ := counted_clean clean₀
      rw [ReaderState.counted_tokens] at hts
      refine ⟨clean', ts ++ comma :: us, ?_, ?_, by simp, by simp; omega⟩
      · rw [hts, hs, show rest = us ++ s₂.tokens from hus]
        simp
      · obtain ⟨other, others, rfl⟩ := List.exists_cons_of_ne_nil hne
        exact .more ht hcomma hu
    · intro _ clean
      obtain ⟨clean₀, ts, hts, ht⟩ := hargument clean
      obtain ⟨clean', hlt⟩ := counted_clean clean₀
      rw [ReaderState.counted_tokens] at hts
      exact ⟨clean', ts, hts, .last ht, by simp, by simp; omega⟩

theorem primary_took : ∀ (depth : Nat) (s : ReaderState),
    (primary depth).Meets s (Took Primary s) anyStop
  | 0, s => by
    rw [primary]
    exact meets_exhausted trivial
  | depth + 1, s => by
    refine meets_primary ?_ ?_ ?_ ?_ ?_ fun _ => trivial
    · exact fun token rest value hs hv clean => ⟨clean, [token], hs, .literal (constant_iff.mpr hv)⟩
    · intro opening rest hs hopening
      refine (assignment_took depth _).imp fun inner s₁ hinner => ?_
      refine meets_expectSymbol ?_ fun _ => trivial
      intro closing rest' hs₁ hclosing clean
      obtain ⟨clean₀, ts, hts, ht⟩ := hinner clean
      refine ⟨clean₀, opening :: (ts ++ [closing]), ?_, .grouping hopening ht hclosing⟩
      rw [hs, show rest = ts ++ s₁.tokens from hts, hs₁]
      simp
    · exact fun token rest hs hk clean => ⟨clean, [token], hs, .name hk⟩
    · exact fun token rest hs hk clean => ⟨clean, [token], hs, .this hk⟩
    · intro token rest hs hk
      refine meets_expectSymbol ?_ fun _ => trivial
      intro dot rest' hs₁ hdot
      refine meets_expectName ?_ fun _ => trivial
      intro name rest'' hs₂ hname clean
      refine ⟨clean, [token, dot, name], ?_, .super hk hdot hname⟩
      rw [hs, show rest = dot :: rest' from hs₁, show rest' = name :: rest'' from hs₂]
      rfl

end

/-! ### Clauses and lists of names -/

theorem expressionStatement_took (depth : Nat) (s : ReaderState) :
    (expressionStatement depth).Meets s (Took ExpressionStatement s) anyStop := by
  refine meets_expressionStatement ((assignment_took depth s).imp fun value s₁ hvalue => ?_)
  refine meets_expectSymbol ?_ fun _ => trivial
  intro semicolon rest hs hsemicolon clean
  obtain ⟨clean₀, ts, hts, ht⟩ := hvalue clean
  exact ⟨clean₀, ts ++ [semicolon], by rw [hts, hs]; simp, .intro ht hsemicolon⟩

theorem varDeclaration_took (depth : Nat) (s : ReaderState) :
    (varDeclaration depth).Meets s (Took Variable s) anyStop := by
  refine meets_varDeclaration (meets_expectName ?_ fun _ => trivial)
  refine fun name rest hs hname => ⟨?_, ?_⟩
  · intro equal rest' hs₁ hequal
    refine (assignment_took depth _).imp fun value s₁ hvalue => ?_
    refine meets_expectSymbol ?_ fun _ => trivial
    intro semicolon rest'' hs₂ hsemicolon clean
    obtain ⟨clean₀, ts, hts, ht⟩ := hvalue clean
    refine ⟨clean₀, name :: equal :: (ts ++ [semicolon]), ?_, .withValue hname hequal ht hsemicolon⟩
    rw [hs, show rest = equal :: rest' from hs₁, show rest' = ts ++ s₁.tokens from hts, hs₂]
    simp
  · intro _
    refine meets_expectSymbol ?_ fun _ => trivial
    intro semicolon rest' hs₁ hsemicolon clean
    refine ⟨clean, [name, semicolon], ?_, .bare hname hsemicolon⟩
    rw [hs, show rest = semicolon :: rest' from hs₁]
    rfl

theorem forInitializer_took (depth : Nat) (s : ReaderState) :
    (forInitializer depth).Meets s (Took Initializer s) anyStop := by
  refine meets_forInitializer ?_ ?_ ?_
  · exact fun token rest hs hk clean => ⟨clean, [token], hs, .none hk⟩
  · intro token rest hs hk
    refine (varDeclaration_took depth _).imp fun first s₁ hfirst clean => ?_
    obtain ⟨clean₀, ts, hts, ht⟩ := hfirst clean
    refine ⟨clean₀, token :: ts, ?_, .varDecl hk ht⟩
    rw [hs, show rest = ts ++ s₁.tokens from hts, List.cons_append]
  · intro _ _
    refine (expressionStatement_took depth s).imp fun first s₁ hfirst clean => ?_
    obtain ⟨clean₀, ts, hts, ht⟩ := hfirst clean
    exact ⟨clean₀, ts, hts, .expression ht⟩

theorem optionalBefore_took (depth : Nat) (symbol : Symbol) (s : ReaderState) :
    (optionalBefore depth symbol).Meets s (Took Optional s) anyStop := by
  refine meets_optionalBefore (fun _ clean => ⟨clean, [], rfl, .none⟩) fun _ => ?_
  refine (assignment_took depth s).imp fun value s₁ hvalue clean => ?_
  obtain ⟨clean₀, ts, hts, ht⟩ := hvalue clean
  exact ⟨clean₀, ts, hts, .some ht⟩

theorem returnStatement_took (depth : Nat) (word : Token) (hword : word.kind = .keyword .return)
    (s : ReaderState) :
    (returnStatement depth word.line).Meets s
      (Took (fun ts stmt => Statement false (word :: ts) stmt) s) anyStop := by
  refine meets_returnStatement ?_ ?_
  · intro _
    refine meets_expectSymbol ?_ fun _ => trivial
    intro semicolon rest hs hsemicolon clean
    exact ⟨clean, [semicolon], hs, .returnNothing hword hsemicolon⟩
  · intro _
    refine (assignment_took depth s).imp fun value s₁ hvalue => ?_
    refine meets_expectSymbol ?_ fun _ => trivial
    intro semicolon rest hs hsemicolon clean
    obtain ⟨clean₀, ts, hts, ht⟩ := hvalue clean
    exact ⟨clean₀, ts ++ [semicolon], by rw [hts, hs]; simp, .returnValue hword ht hsemicolon⟩

theorem printStatement_took (depth : Nat) (word : Token) (hword : word.kind = .keyword .print)
    (s : ReaderState) :
    (printStatement depth).Meets s
      (Took (fun ts stmt => Statement false (word :: ts) stmt) s) anyStop := by
  refine meets_printStatement ((assignment_took depth s).imp fun value s₁ hvalue => ?_)
  refine meets_expectSymbol ?_ fun _ => trivial
  intro semicolon rest hs hsemicolon clean
  obtain ⟨clean₀, ts, hts, ht⟩ := hvalue clean
  exact ⟨clean₀, ts ++ [semicolon], by rw [hts, hs]; simp, .print hword ht hsemicolon⟩

theorem parameters_took : ∀ (depth count : Nat) (s : ReaderState),
    (parameters depth count).Meets s (Took (fun ts names =>
      Parameters ts names ∧ names ≠ [] ∧ count + names.length ≤ maxArity) s) anyStop
  | 0, count, s => by
    rw [parameters]
    exact meets_exhausted trivial
  | depth + 1, count, s => by
    refine meets_parameters (meets_expectName ?_ fun _ => trivial)
    intro param rest hs hparam
    rw [ReaderState.counted_tokens] at hs
    refine ⟨?_, ?_⟩
    · intro comma rest' hs₁ hcomma
      refine (parameters_took depth (count + 1) _).imp fun others s₂ hothers clean => ?_
      obtain ⟨clean₁, us, hus, hu, hne, hlength⟩ := hothers clean
      obtain ⟨clean₀, hlt⟩ := counted_clean clean₁
      refine ⟨clean₀, param :: comma :: us, ?_, ?_, by simp, by simp; omega⟩
      · rw [hs, show rest = comma :: rest' from hs₁, show rest' = us ++ s₂.tokens from hus]
        simp
      · obtain ⟨name, names, rfl⟩ := List.exists_cons_of_ne_nil hne
        exact .more hparam hcomma hu
    · intro _ clean
      obtain ⟨clean₀, hlt⟩ := counted_clean clean
      exact ⟨clean₀, [param], hs, .last hparam, by simp, by simp; omega⟩

theorem parameterList_took (depth : Nat) (s : ReaderState) :
    (parameterList depth).Meets s (Took (fun ts names =>
      Parameters ts names ∧ names.length ≤ maxArity) s) anyStop := by
  refine meets_parameterList (fun _ clean => ⟨clean, [], rfl, .none, by simp⟩) fun _ => ?_
  refine (parameters_took depth 0 s).imp fun names s₁ hnames clean => ?_
  obtain ⟨clean₀, ts, hts, ht, -, hcount⟩ := hnames clean
  exact ⟨clean₀, ts, hts, ht, by omega⟩

theorem superclass_took (s : ReaderState) :
    superclass.Meets s (Took Superclass s) anyStop := by
  refine meets_superclass ?_ fun _ clean => ⟨clean, [], rfl, .none⟩
  intro less rest hs hless
  refine meets_expectName ?_ fun _ => trivial
  intro name rest' hs₁ hname clean
  refine ⟨clean, [less, name], ?_, .some hless hname⟩
  rw [hs, show rest = name :: rest' from hs₁]
  rfl

/-! ### Statements and declarations -/

/-- A statement was taken; if it is open then no `else` follows it. -/
def TookStatement (s : ReaderState) (stmt : Stmt) (s' : ReaderState) : Prop :=
  Took (fun ts stmt => ∃ isOpen, Statement isOpen ts stmt ∧
    (isOpen = true → ¬ (Token.Kind.keyword .else).Starts s'.tokens)) s stmt s'

/-- A declaration was taken; where none was, a fault was noted. -/
def TookDeclaration : ReaderState → Option Stmt → ReaderState → Prop :=
  Took fun ts found => ∃ stmt, found = some stmt ∧ Declaration ts stmt

theorem Took.closed {s s' : ReaderState} {stmt : Stmt} {token : Token} {rest : List Token}
    (hs : s.tokens = token :: rest)
    (h : Took (fun ts stmt => Statement false (token :: ts) stmt) { s with tokens := rest }
      stmt s') : TookStatement s stmt s' := by
  intro clean
  obtain ⟨clean₀, ts, hts, ht⟩ := h clean
  refine ⟨clean₀, token :: ts, ?_, false, ht, by simp⟩
  rw [hs, show rest = ts ++ s'.tokens from hts, List.cons_append]

mutual

theorem declaration_took : ∀ (depth : Nat) (s : ReaderState),
    (declaration depth).Meets s (TookDeclaration s) anyStop
  | 0, s => by
    rw [declaration]
    exact meets_exhausted trivial
  | depth + 1, s => by
    refine meets_declaration (F := anyStop) ?_ ?_ ?_ ?_
      (fun _ _ _ clean => absurd clean (by simp)) fun _ _ => trivial
    · intro word rest hs hword
      refine meets_expectName ?_ fun _ => trivial
      intro name rest₁ hs₁ hname
      refine (superclass_took _).imp fun parent s₂ hparent => ?_
      refine meets_expectSymbol ?_ fun _ => trivial
      intro opening rest₃ hs₃ hopening
      refine (methods_took depth _).imp fun methods s₄ hmethods => ?_
      refine meets_expectSymbol ?_ fun _ => trivial
      intro closing rest₅ hs₅ hclosing clean
      obtain ⟨clean₃, ms, hms, hm⟩ := hmethods clean
      obtain ⟨clean₀, ps, hps, hp⟩ := hparent clean₃
      refine ⟨clean₀, word :: name :: (ps ++ opening :: (ms ++ [closing])), ?_, _, rfl,
        .cls hword hname hp hopening hm hclosing⟩
      rw [hs, show rest = name :: rest₁ from hs₁, show rest₁ = ps ++ s₂.tokens from hps, hs₃,
        show rest₃ = ms ++ s₄.tokens from hms, hs₅]
      simp
    · intro word rest hs hword
      refine (function_took depth .function _).imp fun f s₁ hf clean => ?_
      obtain ⟨clean₀, ts, hts, ht⟩ := hf clean
      refine ⟨clean₀, word :: ts, ?_, _, rfl, .function hword ht⟩
      rw [hs, show rest = ts ++ s₁.tokens from hts, List.cons_append]
    · intro word rest hs hword
      refine (varDeclaration_took depth _).imp fun stmt s₁ hstmt clean => ?_
      obtain ⟨clean₀, ts, hts, ht⟩ := hstmt clean
      refine ⟨clean₀, word :: ts, ?_, _, rfl, .varDecl hword ht⟩
      rw [hs, show rest = ts ++ s₁.tokens from hts, List.cons_append]
    · intro _ _ _
      refine (statement_took depth s).imp fun stmt s₁ hstmt clean => ?_
      obtain ⟨clean₀, ts, hts, isOpen, ht, -⟩ := hstmt clean
      exact ⟨clean₀, ts, hts, _, rfl, .statement ht⟩

theorem declarations_took : ∀ (depth : Nat) (s : ReaderState),
    (declarations depth).Meets s (Took Declarations s) anyStop
  | 0, s => by
    rw [declarations]
    exact meets_exhausted trivial
  | depth + 1, s => by
    refine meets_declarations (fun _ clean => ⟨clean, [], rfl, .nil⟩) fun _ => ?_
    refine (declaration_took depth s).imp fun first s₁ hfirst => ?_
    refine (declarations_took depth s₁).imp fun others s₂ hothers clean => ?_
    obtain ⟨clean₁, us, hus, hu⟩ := hothers clean
    obtain ⟨clean₀, ts, hts, stmt, rfl, ht⟩ := hfirst clean₁
    exact ⟨clean₀, ts ++ us, by rw [hts, hus, List.append_assoc], .cons ht hu⟩

theorem block_took : ∀ (depth : Nat) (s : ReaderState), (block depth).Meets s
    (Took (fun ts body => ∃ (us : List Token) (closing : Token), ts = us ++ [closing] ∧
      Declarations us body ∧ closing.kind = .symbol .rightBrace) s) anyStop
  | 0, s => by
    rw [block]
    exact meets_exhausted trivial
  | depth + 1, s => by
    refine meets_block ((declarations_took depth s).imp fun body s₁ hbody => ?_)
    refine meets_expectSymbol ?_ fun _ => trivial
    intro closing rest hs hclosing clean
    obtain ⟨clean₀, us, hus, hu⟩ := hbody clean
    exact ⟨clean₀, us ++ [closing], by rw [hus, hs]; simp, us, closing, rfl, hu, hclosing⟩

theorem function_took : ∀ (depth : Nat) (role : FunctionRole) (s : ReaderState),
    (function depth role).Meets s (Took Function s) anyStop
  | 0, role, s => by
    rw [function]
    exact meets_exhausted trivial
  | depth + 1, role, s => by
    refine meets_function (meets_expectName ?_ fun _ => trivial)
    intro name rest hs hname
    refine meets_expectSymbol ?_ fun _ => trivial
    intro opening rest₁ hs₁ hopening
    refine (parameterList_took depth _).imp fun params s₂ hparams => ?_
    refine meets_expectSymbol ?_ fun _ => trivial
    intro closing rest₃ hs₃ hclosing
    refine meets_expectSymbol ?_ fun _ => trivial
    intro brace rest₄ hs₄ hbrace
    refine (block_took depth _).imp fun body s₅ hbody clean => ?_
    obtain ⟨clean₄, ts, hts, us, closing', rfl, hu, hclosing'⟩ := hbody clean
    obtain ⟨clean₀, ps, hps, hp, hcount⟩ := hparams clean₄
    refine ⟨clean₀, name :: opening :: (ps ++ closing :: brace :: (us ++ [closing'])), ?_,
      .intro hname hopening hp hcount hclosing hbrace hu hclosing'⟩
    rw [hs, show rest = opening :: rest₁ from hs₁, show rest₁ = ps ++ s₂.tokens from hps, hs₃,
      show rest₃ = brace :: rest₄ from hs₄, show rest₄ = us ++ [closing'] ++ s₅.tokens from hts]
    simp

theorem methods_took : ∀ (depth : Nat) (s : ReaderState),
    (methods depth).Meets s (Took Methods s) anyStop
  | 0, s => by
    rw [methods]
    exact meets_exhausted trivial
  | depth + 1, s => by
    refine meets_methods (fun _ clean => ⟨clean, [], rfl, .nil⟩) fun _ => ?_
    refine (function_took depth .method s).imp fun first s₁ hfirst => ?_
    refine (methods_took depth s₁).imp fun others s₂ hothers clean => ?_
    obtain ⟨clean₁, us, hus, hu⟩ := hothers clean
    obtain ⟨clean₀, ts, hts, ht⟩ := hfirst clean₁
    exact ⟨clean₀, ts ++ us, by rw [hts, hus, List.append_assoc], .cons ht hu⟩

theorem statement_took : ∀ (depth : Nat) (s : ReaderState),
    (statement depth).Meets s (TookStatement s) anyStop
  | 0, s => by
    rw [statement]
    exact meets_exhausted trivial
  | depth + 1, s => by
    refine meets_statement ?_ ?_ ?_ ?_ ?_ ?_ ?_
    · intro word rest hs hword
      exact (printStatement_took depth word hword _).imp fun stmt s₁ h => h.closed hs
    · intro opening rest hs hopening
      refine (block_took depth _).imp fun body s₁ hbody => Took.closed hs fun clean => ?_
      obtain ⟨clean₀, ts, hts, us, closing, rfl, hu, hclosing⟩ := hbody clean
      exact ⟨clean₀, us ++ [closing], hts, .block hopening hu hclosing⟩
    · intro word rest hs hword
      refine meets_expectSymbol ?_ fun _ => trivial
      intro opening rest₁ hs₁ hopening
      refine (assignment_took depth _).imp fun condition s₂ hcondition => ?_
      refine meets_expectSymbol ?_ fun _ => trivial
      intro closing rest₃ hs₃ hclosing
      refine (statement_took depth _).imp fun thenBranch s₄ hthen => ⟨?_, ?_⟩
      · intro other rest₅ hs₅ hother
        refine (statement_took depth _).imp fun elseBranch s₆ helse clean => ?_
        obtain ⟨clean₄, us, hus, isOpen, hu, hfree⟩ := helse clean
        obtain ⟨clean₃, ts, hts, isOpen', ht, hfree'⟩ := hthen clean₄
        obtain ⟨clean₀, cs, hcs, hc⟩ := hcondition clean₃
        -- an open branch would have taken the `else` itself
        have hclosed : isOpen' = false := by
          cases isOpen' with
          | false => rfl
          | true => exact absurd ⟨other, rest₅, hs₅, hother⟩ (hfree' rfl)
        subst hclosed
        refine ⟨clean₀, word :: opening :: (cs ++ closing :: (ts ++ other :: us)), ?_, isOpen,
          .ifElse hword hopening hc hclosing ht hother hu, hfree⟩
        rw [hs, show rest = opening :: rest₁ from hs₁, show rest₁ = cs ++ s₂.tokens from hcs, hs₃,
          show rest₃ = ts ++ s₄.tokens from hts, hs₅, show rest₅ = us ++ s₆.tokens from hus]
        simp
      · intro hfree clean
        obtain ⟨clean₃, ts, hts, isOpen', ht, -⟩ := hthen clean
        obtain ⟨clean₀, cs, hcs, hc⟩ := hcondition clean₃
        refine ⟨clean₀, word :: opening :: (cs ++ closing :: ts), ?_, true,
          .ifThen hword hopening hc hclosing ht, fun _ => hfree⟩
        rw [hs, show rest = opening :: rest₁ from hs₁, show rest₁ = cs ++ s₂.tokens from hcs, hs₃,
          show rest₃ = ts ++ s₄.tokens from hts]
        simp
    · intro word rest hs hword
      refine meets_expectSymbol ?_ fun _ => trivial
      intro opening rest₁ hs₁ hopening
      refine (assignment_took depth _).imp fun condition s₂ hcondition => ?_
      refine meets_expectSymbol ?_ fun _ => trivial
      intro closing rest₃ hs₃ hclosing
      refine (statement_took depth _).imp fun body s₄ hbody clean => ?_
      obtain ⟨clean₃, ts, hts, isOpen, ht, hfree⟩ := hbody clean
      obtain ⟨clean₀, cs, hcs, hc⟩ := hcondition clean₃
      refine ⟨clean₀, word :: opening :: (cs ++ closing :: ts), ?_, isOpen,
        .whileLoop hword hopening hc hclosing ht, hfree⟩
      rw [hs, show rest = opening :: rest₁ from hs₁, show rest₁ = cs ++ s₂.tokens from hcs, hs₃,
        show rest₃ = ts ++ s₄.tokens from hts]
      simp
    · intro word rest hs hword
      refine meets_expectSymbol ?_ fun _ => trivial
      intro opening rest₁ hs₁ hopening
      refine (forInitializer_took depth _).imp fun initializer s₂ hinitializer => ?_
      refine (optionalBefore_took depth .semicolon _).imp fun condition s₃ hcondition => ?_
      refine meets_expectSymbol ?_ fun _ => trivial
      intro semicolon rest₄ hs₄ hsemicolon
      refine (optionalBefore_took depth .rightParen _).imp fun increment s₅ hincrement => ?_
      refine meets_expectSymbol ?_ fun _ => trivial
      intro closing rest₆ hs₆ hclosing
      refine (statement_took depth _).imp fun body s₇ hbody clean => ?_
      obtain ⟨clean₆, ts, hts, isOpen, ht, hfree⟩ := hbody clean
      obtain ⟨clean₄, ns, hns, hn⟩ := hincrement clean₆
      obtain ⟨clean₂, cs, hcs, hc⟩ := hcondition clean₄
      obtain ⟨clean₀, is, his, hi⟩ := hinitializer clean₂
      refine ⟨clean₀, word :: opening :: (is ++ (cs ++ semicolon :: (ns ++ closing :: ts))), ?_,
        isOpen, .forLoop hword hopening hi hc hsemicolon hn hclosing ht (forTree_iff.mpr rfl), hfree⟩
      rw [hs, show rest = opening :: rest₁ from hs₁, show rest₁ = is ++ s₂.tokens from his,
        hcs, hs₄, show rest₄ = ns ++ s₅.tokens from hns, hs₆,
        show rest₆ = ts ++ s₇.tokens from hts]
      simp
    · intro word rest hs hword
      exact (returnStatement_took depth word hword _).imp fun stmt s₁ h => h.closed hs
    · intro _
      refine (expressionStatement_took depth s).imp fun stmt s₁ hstmt clean => ?_
      obtain ⟨clean₀, ts, hts, ht⟩ := hstmt clean
      exact ⟨clean₀, ts, hts, false, .expression ht, by simp⟩

end

/-- A program that is read without a fault is made of the tokens before the end. -/
theorem program_took (depth : Nat) (s : ReaderState) :
    (program depth).Meets s
      (fun p s' => Took Declarations s p s' ∧ AtEnd s'.tokens) anyStop := by
  induction depth generalizing s with
  | zero =>
    rw [program]
    exact meets_exhausted trivial
  | succ depth ih =>
    refine meets_program (fun hend => ⟨fun clean => ⟨clean, [], rfl, .nil⟩, hend⟩) fun _ => ?_
    refine (declaration_took depth s).imp fun first s₁ hfirst => ?_
    refine (ih s₁).imp fun others s₂ hboth => ⟨fun clean => ?_, hboth.2⟩
    obtain ⟨clean₁, us, hus, hu⟩ := hboth.1 clean
    obtain ⟨clean₀, ts, hts, stmt, rfl, ht⟩ := hfirst clean₁
    exact ⟨clean₀, ts ++ us, by rw [hts, hus, List.append_assoc], .cons ht hu⟩

end Lox.Reader
