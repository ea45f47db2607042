/-
Reading moves on and is never short of depth.

* `Onward s s'` — from `s` to `s'` tokens were only taken from the front, ids only
  handed out, faults only added;
* `Advance s s'` — and at least one token was taken;
* `Reader.Proceeds reader s` — `reader` advances from `s`, or stops at a fault further on.

Every rule of the grammar proceeds when its depth is sixteen times the number of
tokens and a rank more, the rank being the number of rules it goes through before a
token is taken: `assignment_proceeds` ... `declaration_proceeds`.  So
`program_proceeds`: the bound `Reader.depthFor` suffices for every list of tokens.
-/
import Lox.Proofs.Reading.StatementRules

namespace Lox

/-- Tokens were taken from the front, ids handed out and faults added. -/
structure Onward (s s' : ReaderState) : Prop where
  tokens : s'.tokens <:+ s.tokens
  nextId : s.nextId ≤ s'.nextId
  faults : s.faults <+: s'.faults

theorem Onward.refl (s : ReaderState) : Onward s s :=
  ⟨List.suffix_refl _, Nat.le_refl _, List.prefix_refl _⟩

theorem Onward.trans {s s₁ s₂ : ReaderState} (h : Onward s s₁) (h' : Onward s₁ s₂) :
    Onward s s₂ :=
  ⟨h'.tokens.trans h.tokens, Nat.le_trans h.nextId h'.nextId, h.faults.trans h'.faults⟩

theorem Onward.length_le {s s' : ReaderState} (h : Onward s s') :
    s'.tokens.length ≤ s.tokens.length :=
  h.tokens.length_le

theorem Onward.skip {s s' : ReaderState} {token : Token} {rest : List Token} (h : Onward s s')
    (hs : s'.tokens = token :: rest) : Onward s { s' with tokens := rest } :=
  h.trans ⟨⟨[token], hs.symm⟩, Nat.le_refl _, List.prefix_refl _⟩

/-- At least one token was taken. -/
structure Advance (s s' : ReaderState) : Prop extends Onward s s' where
  length_lt : s'.tokens.length < s.tokens.length

theorem Advance.trans {s s₁ s₂ : ReaderState} (h : Advance s s₁) (h' : Onward s₁ s₂) :
    Advance s s₂ :=
  ⟨h.toOnward.trans h', Nat.lt_of_le_of_lt h'.length_le h.length_lt⟩

theorem Onward.trans_advance {s s₁ s₂ : ReaderState} (h : Onward s s₁) (h' : Advance s₁ s₂) :
    Advance s s₂ :=
  ⟨h.trans h'.toOnward, Nat.lt_of_lt_of_le h'.length_lt h.length_le⟩

theorem Onward.skip_advance {s s' : ReaderState} {token : Token} {rest : List Token}
    (h : Onward s s') (hs : s'.tokens = token :: rest) :
    Advance s { s' with tokens := rest } :=
  h.trans_advance ⟨(Onward.refl s').skip hs, by rw [hs]; exact Nat.lt_succ_self _⟩

theorem Advance.freshId {s s' : ReaderState} (h : Advance s s') :
    Advance s { s' with nextId := s'.nextId + 1 } :=
  h.trans ⟨List.suffix_refl _, Nat.le_succ _, List.prefix_refl _⟩

theorem Advance.complain {s s' : ReaderState} (h : Advance s s') (fault : SyntaxFault) :
    Advance s { s' with faults := s'.faults ++ [fault] } :=
  h.trans ⟨List.suffix_refl _, Nat.le_refl _, List.prefix_append _ _⟩

/-! ### Going on after a fault -/

theorem resume_suffix (tokens : List Token) : resume tokens <:+ tokens := by
  induction tokens with
  | nil => exact List.suffix_refl _
  | cons token tokens ih =>
    rw [resume]
    split
    · exact List.suffix_refl _
    · split
      · exact List.suffix_cons _ _
      · split
        · exact List.suffix_cons _ _
        · exact ih.trans (List.suffix_cons _ _)

/-- Unless reading is at the end, a token is left out. -/
theorem resume_length_lt {tokens : List Token} (h : ¬ Reader.AtEnd tokens) :
    (resume tokens).length < tokens.length := by
  cases tokens with
  | nil => exact absurd (.inl rfl) h
  | cons token tokens =>
    have hk : token.kind ≠ .endOfFile := fun hk => h (.inr (Token.Kind.starts_cons.mpr hk))
    rw [resume, if_neg hk]
    split
    · exact Nat.lt_succ_self _
    · split
      · exact Nat.lt_succ_self _
      · exact Nat.lt_succ_of_le (resume_suffix tokens).length_le

/-- A declaration is read, or its tokens are left out up to where reading goes on. -/
def Declares (s s' : ReaderState) : Prop :=
  Onward s s' ∧ (¬ Reader.AtEnd s.tokens → s'.tokens.length < s.tokens.length)

theorem Advance.declares {s s' : ReaderState} (h : Advance s s') : Declares s s' :=
  ⟨h.toOnward, fun _ => h.length_lt⟩

theorem Onward.recover {s s' : ReaderState} (h : Onward s s') (error : SyntaxError) :
    Declares s { s' with
      tokens := resume s'.tokens
      faults := s'.faults ++ [⟨error, s'.tokens.head?⟩] } := by
  have hstep : Onward s' { s' with
      tokens := resume s'.tokens
      faults := s'.faults ++ [⟨error, s'.tokens.head?⟩] } :=
    ⟨resume_suffix _, Nat.le_refl _, List.prefix_append _ _⟩
  refine ⟨h.trans hstep, fun hend => ?_⟩
  rcases Nat.lt_or_ge s'.tokens.length s.tokens.length with hlt | hge
  · exact Nat.lt_of_le_of_lt hstep.length_le hlt
  · -- nothing was taken, so the fault is at the first token
    have heq : s'.tokens = s.tokens := h.tokens.eq_of_length (Nat.le_antisymm h.length_le hge)
    rw [← heq] at hend ⊢
    exact resume_length_lt hend

namespace Reader

variable {α : Type} {s s₁ : ReaderState}

theorem onward_counted (s : ReaderState) (what : String) (count : Nat) :
    Onward s (ReaderState.counted s what count) := by
  unfold ReaderState.counted
  split
  · exact ⟨List.suffix_refl _, Nat.le_refl _, List.prefix_append _ _⟩
  · exact .refl s

/-- A stop at a fault further on. -/
def StopsOnward (s : ReaderState) (stop : Stop) (s' : ReaderState) : Prop :=
  stop ≠ .exhausted ∧ Onward s s'

/-- The reader takes a token, or stops at a fault further on. -/
def Proceeds (reader : Reader α) (s : ReaderState) : Prop :=
  reader.Meets s (fun _ s' => Advance s s') (StopsOnward s)

theorem Proceeds.then {reader : Reader α} {Q : α → ReaderState → Prop}
    (h : Proceeds reader s₁) (hs : Onward s s₁) (next : ∀ a s₂, Advance s₁ s₂ → Q a s₂) :
    reader.Meets s₁ Q (StopsOnward s) :=
  h.mono next fun _ _ ⟨hstop, hon⟩ => ⟨hstop, hs.trans hon⟩

theorem meets_expect_onward {Q : Token → ReaderState → Prop} {kind : Token.Kind} {what : String}
    (hs : Onward s s₁) (next : ∀ token s₂, Advance s₁ s₂ → Q token s₂) :
    (expect kind what).Meets s₁ Q (StopsOnward s) :=
  meets_expect (fun _ _ hr _ => next _ _ ((Onward.refl _).skip_advance hr))
    fun _ => ⟨Stop.noConfusion, hs⟩

theorem meets_expectSymbol_onward {Q : Unit → ReaderState → Prop} {symbol : Symbol}
    {what : String} (hs : Onward s s₁) (next : ∀ s₂, Advance s₁ s₂ → Q () s₂) :
    (expectSymbol symbol what).Meets s₁ Q (StopsOnward s) :=
  meets_expectSymbol (fun _ _ hr _ => next _ ((Onward.refl _).skip_advance hr))
    fun _ => ⟨Stop.noConfusion, hs⟩

theorem meets_expectName_onward {Q : Name → ReaderState → Prop} {what : String}
    (hs : Onward s s₁) (next : ∀ name s₂, Advance s₁ s₂ → Q name s₂) :
    (expectName what).Meets s₁ Q (StopsOnward s) :=
  meets_expectName (fun _ _ hr _ => next _ _ ((Onward.refl _).skip_advance hr))
    fun _ => ⟨Stop.noConfusion, hs⟩

/-! ### Expressions -/

theorem assigned_advance {equals : Token} {target value : Expr} (h : Advance s s₁) :
    Assigned (fun _ s' => Advance s s') equals target value s₁ := by
  cases target with
  | varRef reference => exact h
  | get object name => exact h
  | _ => exact h.complain _

mutual

theorem assignment_proceeds : ∀ (depth : Nat) (s : ReaderState),
    16 * s.tokens.length + 10 ≤ depth → Proceeds (assignment depth) s
  | 0, _, h => absurd h (by omega)
  | depth + 1, s, h => by
    refine meets_assignment ((operand_proceeds depth Tier.all s ?_).then (.refl s) ?_)
    · exact Nat.le_of_succ_le_succ h
    refine fun target s₁ h₁ => ⟨?_, fun _ => h₁⟩
    intro equals rest hs hk
    have h₂ := h₁.toOnward.skip_advance hs
    have hlt := h₂.length_lt
    refine (assignment_proceeds depth _ (by omega)).then h₂.toOnward fun value s₃ h₃ => ?_
    exact assigned_advance (h₂.trans h₃.toOnward)

theorem operand_proceeds : ∀ (depth : Nat) (tiers : List Tier) (s : ReaderState),
    16 * s.tokens.length + 3 + tiers.length ≤ depth → Proceeds (operand depth tiers) s
  | 0, _, _, h => absurd h (by omega)
  | depth + 1, [], s, h => meets_operand_nil (unary_proceeds depth s (Nat.le_of_succ_le_succ h))
  | depth + 1, tier :: tiers, s, h => by
    rw [List.length_cons] at h
    refine meets_operand_cons ((operand_proceeds depth tiers s ?_).then (.refl s) ?_)
    · exact Nat.le_of_succ_le_succ h
    intro left s₁ h₁
    have hlt := h₁.length_lt
    refine (joined_onward depth tier tiers left s₁ (by omega)).mono ?_ ?_
    · exact fun _ s₂ h₂ => h₁.trans h₂
    · exact fun _ s₂ ⟨hstop, h₂⟩ => ⟨hstop, h₁.toOnward.trans h₂⟩

theorem joined_onward : ∀ (depth : Nat) (tier : Tier) (tiers : List Tier) (left : Expr)
    (s : ReaderState), 16 * s.tokens.length + tiers.length + 1 ≤ depth →
    (joined depth tier tiers left).Meets s (fun _ s' => Onward s s') (StopsOnward s)
  | 0, _, _, _, _, h => absurd h (by omega)
  | depth + 1, tier, tiers, left, s, h => by
    refine meets_joined ?_ fun _ => .refl s
    intro token rest connective hs _
    have h₁ := (Onward.refl s).skip_advance hs
    have hlt := h₁.length_lt
    refine (operand_proceeds depth tiers _ (by omega)).then h₁.toOnward fun right s₂ h₂ => ?_
    have h₂ := h₁.trans h₂.toOnward
    have hlt := h₂.length_lt
    refine (joined_onward depth tier tiers _ s₂ (by omega)).mono ?_ ?_
    · exact fun _ s₃ h₃ => h₂.toOnward.trans h₃
    · exact fun _ s₃ ⟨hstop, h₃⟩ => ⟨hstop, h₂.toOnward.trans h₃⟩

theorem unary_proceeds : ∀ (depth : Nat) (s : ReaderState),
    16 * s.tokens.length + 2 ≤ depth → Proceeds (unary depth) s
  | 0, _, h => absurd h (by omega)
  | depth + 1, s, h => by
    refine meets_unary ?_ fun _ => ?_
    · intro token rest op hs _
      have h₁ := (Onward.refl s).skip_advance hs
      have hlt := h₁.length_lt
      exact (unary_proceeds depth _ (by omega)).then h₁.toOnward fun _ s₂ h₂ =>
        h₁.trans h₂.toOnward
    · refine (primary_proceeds depth s (by omega)).then (.refl s) fun callee s₁ h₁ => ?_
      have hlt := h₁.length_lt
      refine (applied_onward depth callee s₁ (by omega)).mono ?_ ?_
      · exact fun _ s₂ h₂ => h₁.trans h₂
      · exact fun _ s₂ ⟨hstop, h₂⟩ => ⟨hstop, h₁.toOnward.trans h₂⟩

theorem applied_onward : ∀ (depth : Nat) (callee : Expr) (s : ReaderState),
    16 * s.tokens.length + 1 ≤ depth →
    (applied depth callee).Meets s (fun _ s' => Onward s s') (StopsOnward s)
  | 0, _, _, h => absurd h (by omega)
  | depth + 1, callee, s, h => by
    have next : ∀ (callee : Expr) (s₁ : ReaderState), Advance s s₁ →
        (applied depth callee).Meets s₁ (fun _ s' => Onward s s') (StopsOnward s) := by
      intro callee s₁ h₁
      have hlt := h₁.length_lt
      refine (applied_onward depth callee s₁ (by omega)).mono ?_ ?_
      · exact fun _ s₂ h₂ => h₁.toOnward.trans h₂
      · exact fun _ s₂ ⟨hstop, h₂⟩ => ⟨hstop, h₁.toOnward.trans h₂⟩
    refine meets_applied ?_ ?_ ?_ fun _ => .refl s
    · intro opening rest hs _ closing rest' hr _
      subst hr
      exact next _ _ (((Onward.refl s).skip hs).skip_advance rfl)
    · intro opening rest hs _ _
      have h₁ := (Onward.refl s).skip_advance hs
      have hlt := h₁.length_lt
      refine (arguments_proceeds depth 0 _ (by omega)).then h₁.toOnward fun arguments s₂ h₂ => ?_
      have h₂ := h₁.trans h₂.toOnward
      refine meets_expect_onward h₂.toOnward fun closing s₃ h₃ => ?_
      exact next _ _ (h₂.trans h₃.toOnward)
    · intro dot rest hs _
      have h₁ := (Onward.refl s).skip_advance hs
      refine meets_expectName_onward h₁.toOnward fun name s₂ h₂ => ?_
      exact next _ _ (h₁.trans h₂.toOnward)

theorem arguments_proceeds : ∀ (depth count : Nat) (s : ReaderState),
    16 * s.tokens.length + 11 ≤ depth → Proceeds (arguments depth count) s
  | 0, _, _, h => absurd h (by omega)
  | depth + 1, count, s, h => by
    have h₁ := onward_counted s "arguments" count
    have hle := h₁.length_le
    refine meets_arguments ((assignment_proceeds depth _ (by omega)).then h₁ ?_)
    intro argument s₂ h₂
    have h₂ := h₁.trans_advance h₂
    refine ⟨?_, fun _ => h₂⟩
    intro comma rest hs _
    have h₃ := h₂.toOnward.skip_advance hs
    have hlt := h₃.length_lt
    exact (arguments_proceeds depth (count + 1) _ (by omega)).then h₃.toOnward fun _ s₄ h₄ =>
      h₃.trans h₄.toOnward

theorem primary_proceeds : ∀ (depth : Nat) (s : ReaderState),
    16 * s.tokens.length + 1 ≤ depth → Proceeds (primary depth) s
  | 0, _, h => absurd h (by omega)
  | depth + 1, s, h => by
    have skip : ∀ {token : Token} {rest : List Token}, s.tokens = token :: rest →
        Advance s { s with tokens := rest } := fun hs => (Onward.refl s).skip_advance hs
    refine meets_primary ?_ ?_ ?_ ?_ ?_ fun _ => ⟨Stop.noConfusion, .refl s⟩
    · exact fun token rest value hs _ => skip hs
    · intro token rest hs _
      have hlt := (skip hs).length_lt
      refine (assignment_proceeds depth _ (by omega)).then (skip hs).toOnward fun inner s₂ h₂ => ?_
      have h₂ := (skip hs).trans h₂.toOnward
      exact meets_expectSymbol_onward h₂.toOnward fun s₃ h₃ => h₂.trans h₃.toOnward
    · exact fun token rest hs _ => (skip hs).freshId
    · exact fun token rest hs _ => (skip hs).freshId
    · intro token rest hs _
      refine meets_expectSymbol_onward (skip hs).toOnward fun s₂ h₂ => ?_
      have h₂ := (skip hs).trans h₂.toOnward
      exact meets_expectName_onward h₂.toOnward fun method s₃ h₃ => (h₂.trans h₃.toOnward).freshId

end

/-! ### Statements -/

theorem expressionStatement_proceeds {depth : Nat} {s : ReaderState}
    (h : 16 * s.tokens.length + 10 ≤ depth) : Proceeds (expressionStatement depth) s := by
  refine meets_expressionStatement ((assignment_proceeds depth s h).then (.refl s) ?_)
  exact fun value s₁ h₁ => meets_expectSymbol_onward h₁.toOnward fun s₂ h₂ => h₁.trans h₂.toOnward

theorem printStatement_proceeds {depth : Nat} {s : ReaderState}
    (h : 16 * s.tokens.length + 10 ≤ depth) : Proceeds (printStatement depth) s := by
  refine meets_printStatement ((assignment_proceeds depth s h).then (.refl s) ?_)
  exact fun value s₁ h₁ => meets_expectSymbol_onward h₁.toOnward fun s₂ h₂ => h₁.trans h₂.toOnward

theorem returnStatement_proceeds {depth line : Nat} {s : ReaderState}
    (h : 16 * s.tokens.length + 10 ≤ depth) : Proceeds (returnStatement depth line) s := by
  refine meets_returnStatement (fun _ => ?_) fun _ => ?_
  · exact meets_expectSymbol_onward (.refl s) fun s₁ h₁ => h₁
  · refine (assignment_proceeds depth s h).then (.refl s) fun value s₁ h₁ => ?_
    exact meets_expectSymbol_onward h₁.toOnward fun s₂ h₂ => h₁.trans h₂.toOnward

theorem varDeclaration_proceeds {depth : Nat} {s : ReaderState}
    (h : 16 * s.tokens.length + 10 ≤ depth) : Proceeds (varDeclaration depth) s := by
  refine meets_varDeclaration (meets_expectName_onward (.refl s) fun name s₁ h₁ => ⟨?_, fun _ => ?_⟩)
  · intro equal rest hs _
    have h₂ := h₁.toOnward.skip_advance hs
    have hlt := h₂.length_lt
    refine (assignment_proceeds depth _ (by omega)).then h₂.toOnward fun value s₃ h₃ => ?_
    have h₃ := h₂.trans h₃.toOnward
    exact meets_expectSymbol_onward h₃.toOnward fun s₄ h₄ => h₃.trans h₄.toOnward
  · exact meets_expectSymbol_onward h₁.toOnward fun s₂ h₂ => h₁.trans h₂.toOnward

theorem forInitializer_proceeds {depth : Nat} {s : ReaderState}
    (h : 16 * s.tokens.length + 10 ≤ depth) : Proceeds (forInitializer depth) s := by
  refine meets_forInitializer ?_ ?_ fun _ _ => ?_
  · exact fun token rest hs _ => (Onward.refl s).skip_advance hs
  · intro token rest hs _
    have h₁ := (Onward.refl s).skip_advance hs
    have hlt := h₁.length_lt
    exact (varDeclaration_proceeds (by omega)).then h₁.toOnward fun _ s₂ h₂ => h₁.trans h₂.toOnward
  · exact expressionStatement_proceeds h

theorem optionalBefore_onward {depth : Nat} {symbol : Symbol} {s : ReaderState}
    (h : 16 * s.tokens.length + 10 ≤ depth) :
    (optionalBefore depth symbol).Meets s (fun _ s' => Onward s s') (StopsOnward s) :=
  meets_optionalBefore (fun _ => .refl s) fun _ =>
    (assignment_proceeds depth s h).then (.refl s) fun _ _ h₁ => h₁.toOnward

theorem parameters_proceeds : ∀ (depth count : Nat) (s : ReaderState),
    16 * s.tokens.length + 1 ≤ depth → Proceeds (parameters depth count) s
  | 0, _, _, h => absurd h (by omega)
  | depth + 1, count, s, h => by
    have h₁ := onward_counted s "parameters" count
    have hle := h₁.length_le
    refine meets_parameters (meets_expectName_onward h₁ fun param s₂ h₂ => ?_)
    have h₂ := h₁.trans_advance h₂
    refine ⟨?_, fun _ => h₂⟩
    intro comma rest hs _
    have h₃ := h₂.toOnward.skip_advance hs
    have hlt := h₃.length_lt
    exact (parameters_proceeds depth (count + 1) _ (by omega)).then h₃.toOnward fun _ s₄ h₄ =>
      h₃.trans h₄.toOnward

theorem parameterList_onward {depth : Nat} {s : ReaderState}
    (h : 16 * s.tokens.length + 1 ≤ depth) :
    (parameterList depth).Meets s (fun _ s' => Onward s s') (StopsOnward s) :=
  meets_parameterList (fun _ => .refl s) fun _ =>
    (parameters_proceeds depth 0 s h).then (.refl s) fun _ _ h₁ => h₁.toOnward

theorem superclass_onward (s : ReaderState) :
    superclass.Meets s (fun _ s' => Onward s s') (StopsOnward s) := by
  refine meets_superclass ?_ fun _ => .refl s
  intro token rest hs _
  have h₁ := (Onward.refl s).skip_advance hs
  exact meets_expectName_onward h₁.toOnward fun name s₂ h₂ =>
    (h₁.trans h₂.toOnward).freshId.toOnward

/-- An attempt at a declaration proceeds if what it calls does. -/
theorem attempt_proceeds_of {depth : Nat} {s : ReaderState}
    (hmethods : ∀ s, 16 * s.tokens.length + 2 ≤ depth →
      (methods depth).Meets s (fun _ s' => Onward s s') (StopsOnward s))
    (hfunction : ∀ role s, 16 * s.tokens.length + 1 ≤ depth → Proceeds (function depth role) s)
    (hstatement : ∀ s, 16 * s.tokens.length + 11 ≤ depth → Proceeds (statement depth) s)
    (h : 16 * s.tokens.length + 11 ≤ depth) : Proceeds (attempt depth) s := by
  have skip : ∀ {token : Token} {rest : List Token}, s.tokens = token :: rest →
      Advance s { s with tokens := rest } := fun hs => (Onward.refl s).skip_advance hs
  refine meets_attempt ?_ ?_ ?_ fun _ _ _ => hstatement s h
  · intro token rest hs _
    refine meets_expectName_onward (skip hs).toOnward fun name s₂ h₂ => ?_
    have h₂ := (skip hs).trans h₂.toOnward
    refine (superclass_onward s₂).mono (fun parent s₃ h₃ => ?_) fun _ _ ⟨hstop, h₃⟩ =>
      ⟨hstop, h₂.toOnward.trans h₃⟩
    have h₃ := h₂.trans h₃
    refine meets_expectSymbol_onward h₃.toOnward fun s₄ h₄ => ?_
    have h₄ := h₃.trans h₄.toOnward
    have hlt := h₄.length_lt
    refine (hmethods s₄ (by omega)).mono (fun methods s₅ h₅ => ?_)
      fun _ _ ⟨hstop, h₅⟩ => ⟨hstop, h₄.toOnward.trans h₅⟩
    have h₅ := h₄.trans h₅
    exact meets_expectSymbol_onward h₅.toOnward fun s₆ h₆ => h₅.trans h₆.toOnward
  · intro token rest hs _
    have hlt := (skip hs).length_lt
    exact (hfunction .function _ (by omega)).then (skip hs).toOnward
      fun _ s₂ h₂ => (skip hs).trans h₂.toOnward
  · intro token rest hs _
    have hlt := (skip hs).length_lt
    exact (varDeclaration_proceeds (by omega)).then (skip hs).toOnward
      fun _ s₂ h₂ => (skip hs).trans h₂.toOnward

mutual

theorem declaration_proceeds : ∀ (depth : Nat) (s : ReaderState),
    16 * s.tokens.length + 12 ≤ depth →
    (declaration depth).Meets s (fun _ s' => Declares s s') fun _ _ => False
  | 0, _, h => absurd h (by omega)
  | depth + 1, s, h => by
    have hattempt := attempt_proceeds_of (methods_onward depth) (function_proceeds depth)
      (statement_proceeds depth) (Nat.le_of_succ_le_succ h)
    rw [declaration_succ]
    refine meets_recover (hattempt.mono (fun _ _ h₁ => h₁.declares) fun stop s₁ ⟨hstop, h₁⟩ => ?_)
    cases stop with
    | fault error => exact h₁.recover error
    | exhausted => exact hstop rfl

theorem declarations_onward : ∀ (depth : Nat) (s : ReaderState),
    16 * s.tokens.length + 13 ≤ depth →
    (declarations depth).Meets s (fun _ s' => Onward s s') fun _ _ => False
  | 0, _, h => absurd h (by omega)
  | depth + 1, s, h => by
    refine meets_declarations (fun _ => .refl s) fun hend => ?_
    refine (declaration_proceeds depth s (by omega)).imp fun first s₁ ⟨h₁, hlt⟩ => ?_
    have hlt := hlt fun h => hend (.inr h)
    exact (declarations_onward depth s₁ (by omega)).imp fun others s₂ h₂ => h₁.trans h₂

theorem block_proceeds : ∀ (depth : Nat) (s : ReaderState),
    16 * s.tokens.length + 14 ≤ depth → Proceeds (block depth) s
  | 0, _, h => absurd h (by omega)
  | depth + 1, s, h => by
    refine meets_block ((declarations_onward depth s (by omega)).mono ?_ fun _ _ => False.elim)
    exact fun body s₁ h₁ => meets_expectSymbol_onward h₁ fun s₂ h₂ => h₁.trans_advance h₂

theorem function_proceeds : ∀ (depth : Nat) (role : FunctionRole) (s : ReaderState),
    16 * s.tokens.length + 1 ≤ depth → Proceeds (function depth role) s
  | 0, _, _, h => absurd h (by omega)
  | depth + 1, role, s, h => by
    refine meets_function (meets_expectName_onward (.refl s) fun name s₁ h₁ => ?_)
    refine meets_expectSymbol_onward h₁.toOnward fun s₂ h₂ => ?_
    have h₂ := h₁.trans h₂.toOnward
    have hlt := h₂.length_lt
    refine (parameterList_onward (by omega)).mono (fun params s₃ h₃ => ?_)
      fun _ _ ⟨hstop, h₃⟩ => ⟨hstop, h₂.toOnward.trans h₃⟩
    have h₃ := h₂.trans h₃
    refine meets_expectSymbol_onward h₃.toOnward fun s₄ h₄ => ?_
    have h₄ := h₃.trans h₄.toOnward
    refine meets_expectSymbol_onward h₄.toOnward fun s₅ h₅ => ?_
    have h₅ := h₄.trans h₅.toOnward
    have hlt := h₅.length_lt
    exact (block_proceeds depth s₅ (by omega)).then h₅.toOnward fun _ s₆ h₆ =>
      h₅.trans h₆.toOnward

theorem methods_onward : ∀ (depth : Nat) (s : ReaderState),
    16 * s.tokens.length + 2 ≤ depth →
    (methods depth).Meets s (fun _ s' => Onward s s') (StopsOnward s)
  | 0, _, h => absurd h (by omega)
  | depth + 1, s, h => by
    refine meets_methods (fun _ => .refl s) fun _ => ?_
    refine (function_proceeds depth .method s (by omega)).then (.refl s) fun first s₁ h₁ => ?_
    have hlt := h₁.length_lt
    refine (methods_onward depth s₁ (by omega)).mono ?_ ?_
    · exact fun _ s₂ h₂ => h₁.toOnward.trans h₂
    · exact fun _ s₂ ⟨hstop, h₂⟩ => ⟨hstop, h₁.toOnward.trans h₂⟩

theorem statement_proceeds : ∀ (depth : Nat) (s : ReaderState),
    16 * s.tokens.length + 11 ≤ depth → Proceeds (statement depth) s
  | 0, _, h => absurd h (by omega)
  | depth + 1, s, h => by
    have skip : ∀ {token : Token} {rest : List Token}, s.tokens = token :: rest →
        Advance s { s with tokens := rest } := fun hs => (Onward.refl s).skip_advance hs
    refine meets_statement ?_ ?_ ?_ ?_ ?_ ?_ fun _ => expressionStatement_proceeds (by omega)
    · intro token rest hs _
      have hlt := (skip hs).length_lt
      exact (printStatement_proceeds (by omega)).then (skip hs).toOnward fun _ s₂ h₂ =>
        (skip hs).trans h₂.toOnward
    · intro token rest hs _
      have hlt := (skip hs).length_lt
      exact (block_proceeds depth _ (by omega)).then (skip hs).toOnward fun _ s₂ h₂ =>
        (skip hs).trans h₂.toOnward
    · intro token rest hs _
      refine meets_expectSymbol_onward (skip hs).toOnward fun s₂ h₂ => ?_
      have h₂ := (skip hs).trans h₂.toOnward
      have hlt := h₂.length_lt
      refine (assignment_proceeds depth s₂ (by omega)).then h₂.toOnward fun condition s₃ h₃ => ?_
      have h₃ := h₂.trans h₃.toOnward
      refine meets_expectSymbol_onward h₃.toOnward fun s₄ h₄ => ?_
      have h₄ := h₃.trans h₄.toOnward
      have hlt := h₄.length_lt
      refine (statement_proceeds depth s₄ (by omega)).then h₄.toOnward fun thenBranch s₅ h₅ => ?_
      have h₅ := h₄.trans h₅.toOnward
      refine ⟨fun word rest hs _ => ?_, fun _ => h₅⟩
      have h₆ := h₅.toOnward.skip_advance hs
      have hlt := h₆.length_lt
      exact (statement_proceeds depth _ (by omega)).then h₆.toOnward fun _ s₇ h₇ =>
        h₆.trans h₇.toOnward
    · intro token rest hs _
      refine meets_expectSymbol_onward (skip hs).toOnward fun s₂ h₂ => ?_
      have h₂ := (skip hs).trans h₂.toOnward
      have hlt := h₂.length_lt
      refine (assignment_proceeds depth s₂ (by omega)).then h₂.toOnward fun condition s₃ h₃ => ?_
      have h₃ := h₂.trans h₃.toOnward
      refine meets_expectSymbol_onward h₃.toOnward fun s₄ h₄ => ?_
      have h₄ := h₃.trans h₄.toOnward
      have hlt := h₄.length_lt
      exact (statement_proceeds depth s₄ (by omega)).then h₄.toOnward fun _ s₅ h₅ =>
        h₄.trans h₅.toOnward
    · intro token rest hs _
      refine meets_expectSymbol_onward (skip hs).toOnward fun s₂ h₂ => ?_
      have h₂ := (skip hs).trans h₂.toOnward
      have hlt := h₂.length_lt
      refine (forInitializer_proceeds (by omega)).then h₂.toOnward fun initializer s₃ h₃ => ?_
      have h₃ := h₂.trans h₃.toOnward
      have hlt := h₃.length_lt
      refine (optionalBefore_onward (by omega)).mono (fun condition s₄ h₄ => ?_)
        fun _ _ ⟨hstop, h₄⟩ => ⟨hstop, h₃.toOnward.trans h₄⟩
      have h₄ := h₃.trans h₄
      refine meets_expectSymbol_onward h₄.toOnward fun s₅ h₅ => ?_
      have h₅ := h₄.trans h₅.toOnward
      have hlt := h₅.length_lt
      refine (optionalBefore_onward (by omega)).mono (fun increment s₆ h₆ => ?_)
        fun _ _ ⟨hstop, h₆⟩ => ⟨hstop, h₅.toOnward.trans h₆⟩
      have h₆ := h₅.trans h₆
      refine meets_expectSymbol_onward h₆.toOnward fun s₇ h₇ => ?_
      have h₇ := h₆.trans h₇.toOnward
      have hlt := h₇.length_lt
      exact (statement_proceeds depth s₇ (by omega)).then h₇.toOnward fun _ s₈ h₈ =>
        h₇.trans h₈.toOnward
    · intro token rest hs _
      have hlt := (skip hs).length_lt
      exact (returnStatement_proceeds (by omega)).then (skip hs).toOnward fun _ s₂ h₂ =>
        (skip hs).trans h₂.toOnward

end

theorem attempt_proceeds {depth : Nat} {s : ReaderState}
    (h : 16 * s.tokens.length + 11 ≤ depth) : Proceeds (attempt depth) s :=
  attempt_proceeds_of (methods_onward depth) (function_proceeds depth) (statement_proceeds depth) h

/-- Reading a program cannot stop. -/
theorem program_proceeds : ∀ (depth : Nat) (s : ReaderState),
    16 * s.tokens.length + 13 ≤ depth →
    (program depth).Meets s (fun _ s' => Onward s s') fun _ _ => False
  | 0, _, h => absurd h (by omega)
  | depth + 1, s, h => by
    refine meets_program (fun _ => .refl s) fun hend => ?_
    refine (declaration_proceeds depth s (by omega)).imp fun first s₁ ⟨h₁, hlt⟩ => ?_
    have hlt := hlt hend
    exact (program_proceeds depth s₁ (by omega)).imp fun others s₂ h₂ => h₁.trans h₂

end Reader

end Lox
