/-
Reading does not pass the end of the file.

`Consumed s s'` says that the tokens between two states of a reader are plain: none of
them is the end of the file.  Every rule of the grammar consumes plain tokens, whether it
ends or stops, and so does going on after a fault.

* `Skips`, `resume_skips` — what is left out after a fault;
* `assignment_consumes` ... `declaration_consumes` — the rules of the grammar.
-/
import Lox.Proofs.Reading.Recognition

namespace Lox

open Grammar

/-! ### Going on after a fault -/

/-- The eight words by which the start of a statement or declaration is known. -/
def leadingWords : List Keyword :=
  [.cls, .fun, .var, .for, .if, .while, .print, .return]

theorem startsStatement_iff {kind : Token.Kind} :
    kind.startsStatement = true ↔ ∃ word ∈ leadingWords, kind = .keyword word := by
  cases kind with
  | keyword word => cases word <;> simp [Token.Kind.startsStatement, leadingWords]
  | _ => simp [Token.Kind.startsStatement]

/-- A statement may start between these tokens: after a semicolon, before a word that one
starts with, or at the end. -/
def Boundary (before after : List Token) : Prop :=
  (∃ token ∈ before.getLast?, token.kind = .symbol .semicolon) ∨
    (∃ token ∈ after.head?, ∃ word ∈ leadingWords, token.kind = .keyword word) ∨
    Reader.AtEnd after

theorem boundary_cons {token : Token} {before after : List Token} (h : before ≠ []) :
    Boundary (token :: before) after ↔ Boundary before after := by
  obtain ⟨first, others, rfl⟩ := List.exists_cons_of_ne_nil h
  rw [Boundary, Boundary, List.getLast?_cons_cons]

/-- These tokens reach up to the first boundary that is not before them. -/
structure Skips (skipped rest : List Token) : Prop where
  nonempty : skipped ≠ []
  plain : Plain skipped
  stops : Boundary skipped rest
  first : ∀ before after, skipped = before ++ after → before ≠ [] → after ≠ [] →
    ¬ Boundary before (after ++ rest)

theorem Skips.one {token : Token} {rest : List Token} (hk : token.kind ≠ .endOfFile)
    (h : Boundary [token] rest) : Skips [token] rest where
  nonempty := List.cons_ne_nil _ _
  plain := plain_cons.mpr ⟨hk, plain_nil⟩
  stops := h
  first before after heq hbefore hafter := by
    have hlength := congrArg List.length heq
    have hb := List.length_pos_iff.mpr hbefore
    have ha := List.length_pos_iff.mpr hafter
    simp only [List.length_append, List.length_cons, List.length_nil] at hlength
    omega

theorem Skips.cons {token : Token} {skipped rest : List Token} (hk : token.kind ≠ .endOfFile)
    (hnot : ¬ Boundary [token] (skipped ++ rest)) (h : Skips skipped rest) :
    Skips (token :: skipped) rest where
  nonempty := List.cons_ne_nil _ _
  plain := plain_cons.mpr ⟨hk, h.plain⟩
  stops := (boundary_cons h.nonempty).mpr h.stops
  first before after heq hbefore hafter := by
    obtain ⟨first, others, rfl⟩ := List.exists_cons_of_ne_nil hbefore
    obtain ⟨rfl, rfl⟩ := List.cons.inj heq
    by_cases hothers : others = []
    · -- the place right after the first token
      subst hothers
      exact hnot
    · rw [boundary_cons hothers]
      exact h.first others after rfl hothers hafter

theorem resume_of_atEnd {tokens : List Token} (h : Reader.AtEnd tokens) :
    resume tokens = tokens := by
  rcases h with rfl | ⟨token, rest, rfl, hk⟩
  · rfl
  · rw [resume, if_pos hk]

/-- Reading goes on at the first boundary after the first token. -/
theorem resume_skips {tokens : List Token} (h : ¬ Reader.AtEnd tokens) :
    ∃ skipped, tokens = skipped ++ resume tokens ∧ Skips skipped (resume tokens) := by
  induction tokens with
  | nil => exact absurd (.inl rfl) h
  | cons token tokens ih =>
    have hk : token.kind ≠ .endOfFile := fun hk => h (.inr (Token.Kind.starts_cons.mpr hk))
    rw [resume, if_neg hk]
    split
    · rename_i hsemicolon
      exact ⟨[token], rfl, .one hk (.inl ⟨token, rfl, hsemicolon⟩)⟩
    · rename_i hsemicolon
      split
      · rename_i hstarts
        obtain ⟨next, hnext, hword⟩ := (Option.any_eq_true _ _).mp hstarts
        exact ⟨[token], rfl, .one hk (.inr (.inl ⟨next, hnext, startsStatement_iff.mp hword⟩))⟩
      · rename_i hstarts
        by_cases hend : Reader.AtEnd tokens
        · rw [resume_of_atEnd hend]
          exact ⟨[token], rfl, .one hk (.inr (.inr hend))⟩
        · -- the place after the first token is no boundary, so the first one is further on
          obtain ⟨skipped, htokens, hskips⟩ := ih hend
          refine ⟨token :: skipped, congrArg _ htokens, .cons hk ?_ hskips⟩
          rw [← htokens]
          rintro (⟨last, hlast, hlastKind⟩ | ⟨next, hnext, hword⟩ | hatEnd)
          · obtain rfl : token = last := by simpa using hlast
            exact hsemicolon hlastKind
          · exact hstarts ((Option.any_eq_true _ _).mpr
              ⟨next, hnext, startsStatement_iff.mpr hword⟩)
          · exact hend hatEnd

/-! ### Plain tokens between two states -/

/-- The tokens between the states are plain. -/
def Consumed (s s' : ReaderState) : Prop :=
  ∃ ts, s.tokens = ts ++ s'.tokens ∧ Plain ts

theorem Consumed.refl (s : ReaderState) : Consumed s s :=
  ⟨[], rfl, plain_nil⟩

theorem Consumed.trans {s s₁ s₂ : ReaderState} (h : Consumed s s₁) (h' : Consumed s₁ s₂) :
    Consumed s s₂ := by
  obtain ⟨ts, hts, hplain⟩ := h
  obtain ⟨us, hus, hplain'⟩ := h'
  exact ⟨ts ++ us, by rw [hts, hus, List.append_assoc], plain_append.mpr ⟨hplain, hplain'⟩⟩

theorem Consumed.skip {s s₁ : ReaderState} {token : Token} {rest : List Token} (h : Consumed s s₁)
    (hs : s₁.tokens = token :: rest) (hk : token.kind ≠ .endOfFile) :
    Consumed s { s₁ with tokens := rest } :=
  h.trans ⟨[token], hs, plain_cons.mpr ⟨hk, plain_nil⟩⟩

theorem Consumed.take {s s₁ : ReaderState} {token : Token} {rest : List Token}
    {kind : Token.Kind} (h : Consumed s s₁) (hs : s₁.tokens = token :: rest)
    (hk : token.kind = kind) (hkind : kind ≠ .endOfFile) : Consumed s { s₁ with tokens := rest } :=
  h.skip hs (hk ▸ hkind)

theorem Consumed.resume {s s₁ : ReaderState} (h : Consumed s s₁) (faults : List SyntaxFault) :
    Consumed s { s₁ with tokens := Lox.resume s₁.tokens, faults := faults } := by
  refine h.trans ?_
  by_cases hend : Reader.AtEnd s₁.tokens
  · exact ⟨[], (resume_of_atEnd hend).symm, plain_nil⟩
  · obtain ⟨skipped, htokens, hskips⟩ := resume_skips hend
    exact ⟨skipped, htokens, hskips.plain⟩

namespace Reader

variable {α : Type} {s s₁ : ReaderState}

/-- The reader consumes plain tokens, whether it ends or stops. -/
def Consumes (reader : Reader α) (s : ReaderState) : Prop :=
  reader.Meets s (fun _ s' => Consumed s s') fun _ s' => Consumed s s'

theorem Consumes.then {reader : Reader α} {Q : α → ReaderState → Prop} (h : Consumes reader s₁)
    (hs : Consumed s s₁) (next : ∀ a s₂, Consumed s s₂ → Q a s₂) :
    reader.Meets s₁ Q fun _ s' => Consumed s s' :=
  h.mono (fun a s₂ h₂ => next a s₂ (hs.trans h₂)) fun _ _ h₂ => hs.trans h₂

theorem Consumes.last {reader : Reader α} (h : Consumes reader s₁) (hs : Consumed s s₁) :
    reader.Meets s₁ (fun _ s' => Consumed s s') fun _ s' => Consumed s s' :=
  h.then hs fun _ _ h₂ => h₂

theorem consumes_expectSymbol (symbol : Symbol) (what : String) (s : ReaderState) :
    Consumes (expectSymbol symbol what) s :=
  meets_expectSymbol (fun _ _ hs hk => (Consumed.refl s).take hs hk nofun) fun _ => .refl s

theorem consumes_expectName (what : String) (s : ReaderState) : Consumes (expectName what) s :=
  meets_expectName (fun _ _ hs hk => (Consumed.refl s).take hs hk nofun) fun _ => .refl s

theorem consumed_counted (s : ReaderState) (what : String) (count : Nat) :
    Consumed s (ReaderState.counted s what count) :=
  ⟨[], by rw [ReaderState.counted_tokens]; rfl, plain_nil⟩

theorem assigned_consumed {equals : Token} {target value : Expr} (h : Consumed s s₁) :
    Assigned (fun _ s' => Consumed s s') equals target value s₁ := by
  cases target <;> exact h

/-! ### Expressions -/

mutual

theorem assignment_consumes : ∀ (depth : Nat) (s : ReaderState), Consumes (assignment depth) s
  | 0, s => meets_exhausted (.refl s)
  | depth + 1, s => by
    refine meets_assignment ((operand_consumes depth (List.suffix_refl _) s).then (.refl s) ?_)
    refine fun target s₁ h₁ => ⟨fun equals rest hs hk => ?_, fun _ => h₁⟩
    exact (assignment_consumes depth _).then (h₁.take hs hk nofun) fun _ _ h₂ =>
      assigned_consumed h₂

theorem operand_consumes : ∀ (depth : Nat) {tiers : List Tier} (_ : tiers <:+ Tier.all)
    (s : ReaderState), Consumes (operand depth tiers) s
  | 0, _, _, s => by
    rw [operand]
    exact meets_exhausted (.refl s)
  | depth + 1, [], _, s => meets_operand_nil (unary_consumes depth s)
  | depth + 1, _ :: tiers, htiers, s => by
    have htighter := (List.suffix_cons _ tiers).trans htiers
    refine meets_operand_cons ((operand_consumes depth htighter s).then (.refl s) ?_)
    exact fun left s₁ h₁ => (joined_consumes depth htiers left s₁).last h₁

theorem joined_consumes : ∀ (depth : Nat) {tier : Tier} {tiers : List Tier}
    (_ : tier :: tiers <:+ Tier.all) (left : Expr) (s : ReaderState),
    Consumes (joined depth tier tiers left) s
  | 0, _, _, _, _, s => by
    rw [joined]
    exact meets_exhausted (.refl s)
  | depth + 1, _, tiers, htiers, left, s => by
    refine meets_joined (fun token rest connective hs hop => ?_) fun _ => .refl s
    -- no tier of operators has the end of the file
    have hkind := (Tier.disjoint htiers _ (Tier.kind_mem_of_lookup hop)).1
    simp only [List.mem_cons, List.not_mem_nil, not_or, or_false] at hkind
    have htighter := (List.suffix_cons _ tiers).trans htiers
    refine (operand_consumes depth htighter _).then ((Consumed.refl s).skip hs hkind.2.2) ?_
    exact fun right s₁ h₁ => (joined_consumes depth htiers _ s₁).last h₁

theorem unary_consumes : ∀ (depth : Nat) (s : ReaderState), Consumes (unary depth) s
  | 0, s => by
    rw [unary]
    exact meets_exhausted (.refl s)
  | depth + 1, s => by
    refine meets_unary (fun token rest op hs hop => ?_) fun _ => ?_
    · have hkind : token.kind ≠ .endOfFile := fun hk => by simp [hk, UnaryOp.ofKind?] at hop
      exact (unary_consumes depth _).last ((Consumed.refl s).skip hs hkind)
    · exact (primary_consumes depth s).then (.refl s) fun callee s₁ h₁ =>
        (applied_consumes depth callee s₁).last h₁

theorem applied_consumes : ∀ (depth : Nat) (callee : Expr) (s : ReaderState),
    Consumes (applied depth callee) s
  | 0, _, s => by
    rw [applied]
    exact meets_exhausted (.refl s)
  | depth + 1, callee, s => by
    refine meets_applied ?_ ?_ ?_ fun _ => .refl s
    · intro opening rest hs hopening closing rest' hr hclosing
      have h₁ := (Consumed.refl s).take hs hopening nofun
      exact (applied_consumes depth _ _).last (h₁.take hr hclosing nofun)
    · intro opening rest hs hopening _
      have h₁ := (Consumed.refl s).take hs hopening nofun
      refine (arguments_consumes depth 0 _).then h₁ fun arguments s₂ h₂ => ?_
      refine meets_expect (fun closing rest' hs₂ hclosing => ?_) fun _ => h₂
      exact (applied_consumes depth _ _).last (h₂.take hs₂ hclosing nofun)
    · intro dot rest hs hdot
      have h₁ := (Consumed.refl s).take hs hdot nofun
      exact (consumes_expectName _ _).then h₁ fun name s₂ h₂ =>
        (applied_consumes depth _ s₂).last h₂

theorem arguments_consumes : ∀ (depth count : Nat) (s : ReaderState),
    Consumes (arguments depth count) s
  | 0, _, s => by
    rw [arguments]
    exact meets_exhausted (.refl s)
  | depth + 1, count, s => by
    refine meets_arguments ((assignment_consumes depth _).then (consumed_counted s _ count) ?_)
    refine fun argument s₁ h₁ => ⟨fun comma rest hs hk => ?_, fun _ => h₁⟩
    exact (arguments_consumes depth (count + 1) _).last (h₁.take hs hk nofun)

theorem primary_consumes : ∀ (depth : Nat) (s : ReaderState), Consumes (primary depth) s
  | 0, s => by
    rw [primary]
    exact meets_exhausted (.refl s)
  | depth + 1, s => by
    refine meets_primary ?_ ?_ ?_ ?_ ?_ fun _ => .refl s
    · intro token rest value hs hvalue
      have hkind : token.kind ≠ .endOfFile := fun hk => by simp [hk, Literal.ofKind?] at hvalue
      exact (Consumed.refl s).skip hs hkind
    · intro token rest hs hk
      refine (assignment_consumes depth _).then ((Consumed.refl s).take hs hk nofun) ?_
      exact fun inner s₂ h₂ => (consumes_expectSymbol _ _ s₂).last h₂
    · exact fun token rest hs hk => (Consumed.refl s).take hs hk nofun
    · exact fun token rest hs hk => (Consumed.refl s).take hs hk nofun
    · intro token rest hs hk
      refine (consumes_expectSymbol _ _ _).then ((Consumed.refl s).take hs hk nofun) ?_
      exact fun _ s₂ h₂ => (consumes_expectName _ s₂).then h₂ fun _ _ h₃ => h₃

end

/-! ### Statements -/

theorem expressionStatement_consumes (depth : Nat) (s : ReaderState) :
    Consumes (expressionStatement depth) s :=
  meets_expressionStatement ((assignment_consumes depth s).then (.refl s) fun _ s₁ h₁ =>
    (consumes_expectSymbol _ _ s₁).last h₁)

theorem printStatement_consumes (depth : Nat) (s : ReaderState) :
    Consumes (printStatement depth) s :=
  meets_printStatement ((assignment_consumes depth s).then (.refl s) fun _ s₁ h₁ =>
    (consumes_expectSymbol _ _ s₁).last h₁)

theorem returnStatement_consumes (depth line : Nat) (s : ReaderState) :
    Consumes (returnStatement depth line) s :=
  meets_returnStatement (fun _ => consumes_expectSymbol _ _ s) fun _ =>
    (assignment_consumes depth s).then (.refl s) fun _ s₁ h₁ =>
      (consumes_expectSymbol _ _ s₁).last h₁

theorem varDeclaration_consumes (depth : Nat) (s : ReaderState) :
    Consumes (varDeclaration depth) s := by
  refine meets_varDeclaration ((consumes_expectName _ s).then (.refl s) ?_)
  refine fun name s₁ h₁ => ⟨fun equal rest hs hk => ?_, fun _ => ?_⟩
  · exact (assignment_consumes depth _).then (h₁.take hs hk nofun) fun _ s₂ h₂ =>
      (consumes_expectSymbol _ _ s₂).last h₂
  · exact (consumes_expectSymbol _ _ s₁).last h₁

theorem forInitializer_consumes (depth : Nat) (s : ReaderState) :
    Consumes (forInitializer depth) s := by
  refine meets_forInitializer ?_ ?_ fun _ _ => expressionStatement_consumes depth s
  · exact fun token rest hs hk => (Consumed.refl s).take hs hk nofun
  · exact fun token rest hs hk =>
      (varDeclaration_consumes depth _).last ((Consumed.refl s).take hs hk nofun)

theorem optionalBefore_consumes (depth : Nat) (symbol : Symbol) (s : ReaderState) :
    Consumes (optionalBefore depth symbol) s :=
  meets_optionalBefore (fun _ => .refl s) fun _ => assignment_consumes depth s

theorem parameters_consumes : ∀ (depth count : Nat) (s : ReaderState),
    Consumes (parameters depth count) s
  | 0, _, s => meets_exhausted (.refl s)
  | depth + 1, count, s => by
    refine meets_parameters ((consumes_expectName _ _).then (consumed_counted s _ count) ?_)
    refine fun param s₁ h₁ => ⟨fun comma rest hs hk => ?_, fun _ => h₁⟩
    exact (parameters_consumes depth (count + 1) _).last (h₁.take hs hk nofun)

theorem parameterList_consumes (depth : Nat) (s : ReaderState) :
    Consumes (parameterList depth) s :=
  meets_parameterList (fun _ => .refl s) fun _ => parameters_consumes depth 0 s

theorem superclass_consumes (s : ReaderState) : Consumes superclass s := by
  refine meets_superclass (fun token rest hs hk => ?_) fun _ => .refl s
  exact (consumes_expectName _ _).then ((Consumed.refl s).take hs hk nofun) fun _ _ h₂ => h₂

mutual

theorem declaration_consumes : ∀ (depth : Nat) (s : ReaderState), Consumes (declaration depth) s
  | 0, s => by
    rw [declaration]
    exact meets_exhausted (.refl s)
  | depth + 1, s => by
    refine meets_declaration (F := fun _ s' => Consumed s s') ?_ ?_ ?_
      (fun _ _ _ => statement_consumes depth s) (fun error _ h₁ => h₁.resume _) fun _ h₁ => h₁
    · intro token rest hs hk
      refine (consumes_expectName _ _).then ((Consumed.refl s).take hs hk nofun) ?_
      refine fun name s₂ h₂ => (superclass_consumes s₂).then h₂ fun parent s₃ h₃ => ?_
      refine (consumes_expectSymbol _ _ s₃).then h₃ fun _ s₄ h₄ => ?_
      refine (methods_consumes depth s₄).then h₄ fun methods s₅ h₅ => ?_
      exact (consumes_expectSymbol _ _ s₅).last h₅
    · exact fun token rest hs hk =>
        (function_consumes depth .function _).last ((Consumed.refl s).take hs hk nofun)
    · exact fun token rest hs hk =>
        (varDeclaration_consumes depth _).last ((Consumed.refl s).take hs hk nofun)

theorem declarations_consumes : ∀ (depth : Nat) (s : ReaderState),
    Consumes (declarations depth) s
  | 0, s => by
    rw [declarations]
    exact meets_exhausted (.refl s)
  | depth + 1, s => by
    refine meets_declarations (fun _ => .refl s) fun _ => ?_
    exact (declaration_consumes depth s).then (.refl s) fun _ s₁ h₁ =>
      (declarations_consumes depth s₁).last h₁

theorem block_consumes : ∀ (depth : Nat) (s : ReaderState), Consumes (block depth) s
  | 0, s => by
    rw [block]
    exact meets_exhausted (.refl s)
  | depth + 1, s =>
    meets_block ((declarations_consumes depth s).then (.refl s) fun _ s₁ h₁ =>
      (consumes_expectSymbol _ _ s₁).last h₁)

theorem function_consumes : ∀ (depth : Nat) (role : FunctionRole) (s : ReaderState),
    Consumes (function depth role) s
  | 0, _, s => by
    rw [function]
    exact meets_exhausted (.refl s)
  | depth + 1, role, s => by
    refine meets_function ((consumes_expectName _ s).then (.refl s) fun name s₁ h₁ => ?_)
    refine (consumes_expectSymbol _ _ s₁).then h₁ fun _ s₂ h₂ => ?_
    refine (parameterList_consumes depth s₂).then h₂ fun params s₃ h₃ => ?_
    refine (consumes_expectSymbol _ _ s₃).then h₃ fun _ s₄ h₄ => ?_
    refine (consumes_expectSymbol _ _ s₄).then h₄ fun _ s₅ h₅ => ?_
    exact (block_consumes depth s₅).last h₅

theorem methods_consumes : ∀ (depth : Nat) (s : ReaderState), Consumes (methods depth) s
  | 0, s => by
    rw [methods]
    exact meets_exhausted (.refl s)
  | depth + 1, s => by
    refine meets_methods (fun _ => .refl s) fun _ => ?_
    exact (function_consumes depth .method s).then (.refl s) fun _ s₁ h₁ =>
      (methods_consumes depth s₁).last h₁

theorem statement_consumes : ∀ (depth : Nat) (s : ReaderState), Consumes (statement depth) s
  | 0, s => by
    rw [statement]
    exact meets_exhausted (.refl s)
  | depth + 1, s => by
    have take : ∀ {token : Token} {rest : List Token} {kind : Token.Kind},
        s.tokens = token :: rest → token.kind = kind → kind ≠ .endOfFile →
        Consumed s { s with tokens := rest } := (Consumed.refl s).take
    refine meets_statement ?_ ?_ ?_ ?_ ?_ ?_ fun _ => expressionStatement_consumes depth s
    · exact fun token rest hs hk => (printStatement_consumes depth _).last (take hs hk nofun)
    · exact fun token rest hs hk => (block_consumes depth _).last (take hs hk nofun)
    · intro token rest hs hk
      refine (consumes_expectSymbol _ _ _).then (take hs hk nofun) fun _ s₂ h₂ => ?_
      refine (assignment_consumes depth s₂).then h₂ fun condition s₃ h₃ => ?_
      refine (consumes_expectSymbol _ _ s₃).then h₃ fun _ s₄ h₄ => ?_
      refine (statement_consumes depth s₄).then h₄ fun thenBranch s₅ h₅ => ?_
      refine ⟨fun word rest hs hk => ?_, fun _ => h₅⟩
      exact (statement_consumes depth _).last (h₅.take hs hk nofun)
    · intro token rest hs hk
      refine (consumes_expectSymbol _ _ _).then (take hs hk nofun) fun _ s₂ h₂ => ?_
      refine (assignment_consumes depth s₂).then h₂ fun condition s₃ h₃ => ?_
      refine (consumes_expectSymbol _ _ s₃).then h₃ fun _ s₄ h₄ => ?_
      exact (statement_consumes depth s₄).last h₄
    · intro token rest hs hk
      refine (consumes_expectSymbol _ _ _).then (take hs hk nofun) fun _ s₂ h₂ => ?_
      refine (forInitializer_consumes depth s₂).then h₂ fun initializer s₃ h₃ => ?_
      refine (optionalBefore_consumes depth _ s₃).then h₃ fun condition s₄ h₄ => ?_
      refine (consumes_expectSymbol _ _ s₄).then h₄ fun _ s₅ h₅ => ?_
      refine (optionalBefore_consumes depth _ s₅).then h₅ fun increment s₆ h₆ => ?_
      refine (consumes_expectSymbol _ _ s₆).then h₆ fun _ s₇ h₇ => ?_
      exact (statement_consumes depth s₇).last h₇
    · exact fun token rest hs hk =>
        (returnStatement_consumes depth _ _).last (take hs hk nofun)

end

end Reader

end Lox
