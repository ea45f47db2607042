/-
Ids are handed out once.

`Numbered n n' mentions` says that the ids of the mentions are different and lie from
`n` on and below `n'`.  Every reader numbers the mentions of what it reads between the
next free id before and after it, whether or not there are faults on the way:

* `assignment_numbered` ... `statement_numbered` — expressions and statements;
* `Program.read_numbered` — whole programs.
-/
import Mathlib.Data.List.Nodup
import Lox.Proofs.Reading.Progress
import Lox.Syntax.Mentions

namespace Lox

/-- The ids of the mentions are different and lie from `n` on and below `n'`. -/
structure Numbered (n n' : Nat) (mentions : List Mention) : Prop where
  le : n ≤ n'
  nodup : (mentions.map Mention.id).Nodup
  range : ∀ m ∈ mentions, n ≤ m.id ∧ m.id < n'

namespace Numbered

variable {n n' n'' : Nat} {ms ns : List Mention}

theorem nil (h : n ≤ n') : Numbered n n' [] :=
  ⟨h, List.nodup_nil, nofun⟩

theorem single (kind : Mention.Kind) (n : Nat) (name : Name) :
    Numbered n (n + 1) [⟨kind, n, name⟩] := by
  refine ⟨Nat.le_succ n, List.nodup_singleton n, fun m hm => ?_⟩
  rw [List.mem_singleton] at hm
  subst hm
  exact ⟨Nat.le_refl n, Nat.lt_succ_self n⟩

/-- Ids that were left out at the end. -/
theorem weaken (h : Numbered n n' ms) (hle : n' ≤ n'') : Numbered n n'' ms :=
  ⟨Nat.le_trans h.le hle, h.nodup, fun m hm =>
    ⟨(h.range m hm).1, Nat.lt_of_lt_of_le (h.range m hm).2 hle⟩⟩

/-- Ids that were left out at the front. -/
theorem later (h : Numbered n' n'' ms) (hle : n ≤ n') : Numbered n n'' ms :=
  ⟨Nat.le_trans hle h.le, h.nodup, fun m hm =>
    ⟨Nat.le_trans hle (h.range m hm).1, (h.range m hm).2⟩⟩

theorem append (h : Numbered n n' ms) (h' : Numbered n' n'' ns) : Numbered n n'' (ms ++ ns) := by
  refine ⟨Nat.le_trans h.le h'.le, ?_, fun m hm => ?_⟩
  · rw [List.map_append]
    refine List.nodup_append.mpr ⟨h.nodup, h'.nodup, fun i hi j hj => ?_⟩
    obtain ⟨m, hm, rfl⟩ := List.mem_map.mp hi
    obtain ⟨m', hm', rfl⟩ := List.mem_map.mp hj
    have hlt := (h.range m hm).2
    have hge := (h'.range m' hm').1
    omega
  · rcases List.mem_append.mp hm with hm | hm
    · exact (h.weaken h'.le).range m hm
    · exact (h'.later h.le).range m hm

/-- The order of the mentions does not matter. -/
theorem perm (h : Numbered n n' ms) (hperm : ms.Perm ns) : Numbered n n' ns :=
  ⟨h.le, (hperm.map Mention.id).nodup_iff.mp h.nodup, fun m hm =>
    h.range m (hperm.mem_iff.mpr hm)⟩

/-- A mention of another kind. -/
theorem rekind {kind kind' : Mention.Kind} {id : Nat} {name name' : Name}
    (h : Numbered n n' (⟨kind, id, name⟩ :: ms)) : Numbered n n' (⟨kind', id, name'⟩ :: ms) := by
  refine ⟨h.le, h.nodup, fun m hm => ?_⟩
  rcases List.mem_cons.mp hm with rfl | hm
  · exact h.range ⟨kind, id, name⟩ List.mem_cons_self
  · exact h.range m (List.mem_cons_of_mem _ hm)

end Numbered

theorem Stmt.mentionsEach_append (ss ss' : List Stmt) :
    Stmt.mentionsEach (ss ++ ss') = Stmt.mentionsEach ss ++ Stmt.mentionsEach ss' := by
  induction ss with
  | nil => rfl
  | cons s ss ih =>
    rw [List.cons_append, Stmt.mentionsEach, Stmt.mentionsEach, ih, List.append_assoc]

namespace Reader

variable {α : Type} {s s₁ s₂ : ReaderState} {n : Nat}

/-- A stop after ids from `n` on were handed out. -/
def StopsFrom (n : Nat) (_ : Stop) (s : ReaderState) : Prop :=
  n ≤ s.nextId

/-- The reader numbers the mentions of what it reads. -/
def NumbersWith (mentions : α → List Mention) (reader : Reader α) (s : ReaderState) : Prop :=
  reader.Meets s (fun a s' => Numbered s.nextId s'.nextId (mentions a)) (StopsFrom s.nextId)

theorem NumbersWith.then {mentions : α → List Mention} {reader : Reader α}
    {Q : α → ReaderState → Prop} (h : NumbersWith mentions reader s₁) (hn : n ≤ s₁.nextId)
    (next : ∀ a s₂, Numbered s₁.nextId s₂.nextId (mentions a) → Q a s₂) :
    reader.Meets s₁ Q (StopsFrom n) :=
  h.mono next fun _ _ hstop => Nat.le_trans hn hstop

theorem meets_expect_from {Q : Token → ReaderState → Prop} {kind : Token.Kind} {what : String}
    (hn : n ≤ s₁.nextId) (next : ∀ token rest, Q token { s₁ with tokens := rest }) :
    (expect kind what).Meets s₁ Q (StopsFrom n) :=
  meets_expect (fun token rest _ _ => next token rest) fun _ => hn

theorem meets_expectSymbol_from {Q : Unit → ReaderState → Prop} {symbol : Symbol} {what : String}
    (hn : n ≤ s₁.nextId) (next : ∀ rest, Q () { s₁ with tokens := rest }) :
    (expectSymbol symbol what).Meets s₁ Q (StopsFrom n) :=
  meets_expectSymbol (fun _ rest _ _ => next rest) fun _ => hn

theorem meets_expectName_from {Q : Name → ReaderState → Prop} {what : String}
    (hn : n ≤ s₁.nextId) (next : ∀ name rest, Q name { s₁ with tokens := rest }) :
    (expectName what).Meets s₁ Q (StopsFrom n) :=
  meets_expectName (fun _ rest _ _ => next _ rest) fun _ => hn

/-! ### Expressions -/

theorem assigned_numbered {equals : Token} {target value : Expr} {n' : Nat}
    (htarget : Numbered n n' target.mentions) (hvalue : Numbered n' s₂.nextId value.mentions) :
    Assigned (fun e s' => Numbered n s'.nextId e.mentions) equals target value s₂ := by
  cases target with
  | varRef reference => exact (htarget.append hvalue).rekind
  | get object name => exact htarget.append hvalue
  | _ => exact htarget.weaken hvalue.le

theorem join_mentions (left : Expr) (line : Nat) (right : Expr) (connective : Connective) :
    (connective.join left line right).mentions = left.mentions ++ right.mentions := by
  cases connective <;> rfl

mutual

theorem assignment_numbered : ∀ (depth : Nat) (s : ReaderState),
    NumbersWith Expr.mentions (assignment depth) s
  | 0, _ => meets_exhausted (Nat.le_refl _)
  | depth + 1, s => by
    refine meets_assignment ((operand_numbered depth Tier.all s).then (Nat.le_refl _) ?_)
    refine fun target s₁ htarget => ⟨fun equals rest _ _ => ?_, fun _ => htarget⟩
    refine (assignment_numbered depth _).then htarget.le fun value s₂ hvalue => ?_
    exact assigned_numbered htarget hvalue

theorem operand_numbered : ∀ (depth : Nat) (tiers : List Tier) (s : ReaderState),
    NumbersWith Expr.mentions (operand depth tiers) s
  | 0, _, _ => by
    rw [operand]
    exact meets_exhausted (Nat.le_refl _)
  | depth + 1, [], s => meets_operand_nil (unary_numbered depth s)
  | depth + 1, tier :: tiers, s => by
    refine meets_operand_cons ((operand_numbered depth tiers s).then (Nat.le_refl _) ?_)
    exact fun left s₁ hleft => joined_numbered depth tier tiers left s₁ hleft

theorem joined_numbered : ∀ (depth : Nat) (tier : Tier) (tiers : List Tier) (left : Expr)
    (s : ReaderState) {n : Nat}, Numbered n s.nextId left.mentions →
    (joined depth tier tiers left).Meets s (fun e s' => Numbered n s'.nextId e.mentions)
      (StopsFrom n)
  | 0, _, _, _, _, _, h => meets_exhausted h.le
  | depth + 1, tier, tiers, left, s, n, h => by
    refine meets_joined (fun token rest connective _ _ => ?_) fun _ => h
    refine (operand_numbered depth tiers _).then h.le fun right s₁ hright => ?_
    refine joined_numbered depth tier tiers _ s₁ ?_
    rw [join_mentions]
    exact h.append hright

theorem unary_numbered : ∀ (depth : Nat) (s : ReaderState),
    NumbersWith Expr.mentions (unary depth) s
  | 0, _ => meets_exhausted (Nat.le_refl _)
  | depth + 1, s => by
    refine meets_unary (fun token rest op _ _ => ?_) fun _ => ?_
    · exact unary_numbered depth { s with tokens := rest }
    · refine (primary_numbered depth s).then (Nat.le_refl _) fun callee s₁ hcallee => ?_
      exact applied_numbered depth callee s₁ hcallee

theorem applied_numbered : ∀ (depth : Nat) (callee : Expr) (s : ReaderState) {n : Nat},
    Numbered n s.nextId callee.mentions →
    (applied depth callee).Meets s (fun e s' => Numbered n s'.nextId e.mentions) (StopsFrom n)
  | 0, _, _, _, h => meets_exhausted h.le
  | depth + 1, callee, s, n, h => by
    refine meets_applied ?_ ?_ ?_ fun _ => h
    · intro _ _ _ _ paren rest' _ _
      refine applied_numbered depth (.call callee [] paren.line) { s with tokens := rest' } ?_
      rwa [Expr.mentions, Expr.mentionsEach, List.append_nil]
    · intro _ rest _ _ _
      refine (arguments_numbered depth 0 { s with tokens := rest }).then h.le
        fun arguments s₁ harguments => ?_
      refine meets_expect_from (Nat.le_trans h.le harguments.le) fun paren rest' => ?_
      exact applied_numbered depth (.call callee arguments paren.line) { s₁ with tokens := rest' }
        (h.append harguments)
    · intro _ rest _ _
      refine meets_expectName_from h.le fun name rest' => ?_
      exact applied_numbered depth (.get callee name) { s with tokens := rest' } h

theorem arguments_numbered : ∀ (depth count : Nat) (s : ReaderState),
    NumbersWith Expr.mentionsEach (arguments depth count) s
  | 0, _, _ => meets_exhausted (Nat.le_refl _)
  | depth + 1, count, s => by
    have hcounted := Nat.le_of_eq (ReaderState.counted_nextId s "arguments" count).symm
    refine meets_arguments ((assignment_numbered depth _).then hcounted fun e s₁ he => ?_)
    rw [ReaderState.counted_nextId] at he
    refine ⟨fun comma rest _ _ => ?_, fun _ => ?_⟩
    · exact (arguments_numbered depth (count + 1) { s₁ with tokens := rest }).then he.le
        fun es s₂ hes => he.append hes
    · show Numbered s.nextId s₁.nextId (e.mentions ++ [])
      rwa [List.append_nil]

theorem primary_numbered : ∀ (depth : Nat) (s : ReaderState),
    NumbersWith Expr.mentions (primary depth) s
  | 0, _ => meets_exhausted (Nat.le_refl _)
  | depth + 1, s => by
    refine meets_primary ?_ ?_ ?_ ?_ ?_ fun _ => Nat.le_refl _
    · exact fun _ _ _ _ _ => .nil (Nat.le_refl _)
    · intro _ rest _ _
      refine (assignment_numbered depth { s with tokens := rest }).then (Nat.le_refl _)
        fun inner s₁ hinner => ?_
      exact meets_expectSymbol_from hinner.le fun _ => hinner
    · exact fun _ _ _ _ => .single _ _ _
    · exact fun _ _ _ _ => .single _ _ _
    · intro _ _ _ _
      refine meets_expectSymbol_from (Nat.le_refl _) fun _ => ?_
      exact meets_expectName_from (Nat.le_refl _) fun _ _ => .single _ _ _

end

/-! ### Statements -/

/-- The mentions in something that may be missing. -/
def mentionsOf {α : Type} (mentions : α → List Mention) (found : Option α) : List Mention :=
  (found.map mentions).getD []

theorem expressionStatement_numbered (depth : Nat) (s : ReaderState) :
    NumbersWith Stmt.mentions (expressionStatement depth) s := by
  refine meets_expressionStatement ((assignment_numbered depth s).then (Nat.le_refl _) ?_)
  exact fun value s₁ h => meets_expectSymbol_from h.le fun _ => h

theorem printStatement_numbered (depth : Nat) (s : ReaderState) :
    NumbersWith Stmt.mentions (printStatement depth) s := by
  refine meets_printStatement ((assignment_numbered depth s).then (Nat.le_refl _) ?_)
  exact fun value s₁ h => meets_expectSymbol_from h.le fun _ => h

theorem returnStatement_numbered (depth line : Nat) (s : ReaderState) :
    NumbersWith Stmt.mentions (returnStatement depth line) s := by
  refine meets_returnStatement (fun _ => ?_) fun _ => ?_
  · exact meets_expectSymbol_from (Nat.le_refl _) fun _ => .nil (Nat.le_refl _)
  · refine (assignment_numbered depth s).then (Nat.le_refl _) fun value s₁ h => ?_
    exact meets_expectSymbol_from h.le fun _ => h

theorem varDeclaration_numbered (depth : Nat) (s : ReaderState) :
    NumbersWith Stmt.mentions (varDeclaration depth) s := by
  refine meets_varDeclaration (meets_expectName_from (Nat.le_refl _) fun name rest => ⟨?_, fun _ => ?_⟩)
  · intro equal rest' _ _
    refine (assignment_numbered depth { s with tokens := rest' }).then (Nat.le_refl _) ?_
    exact fun value s₁ h => meets_expectSymbol_from h.le fun _ => h
  · exact meets_expectSymbol_from (Nat.le_refl _) fun _ => .nil (Nat.le_refl _)

theorem forInitializer_numbered (depth : Nat) (s : ReaderState) :
    NumbersWith (mentionsOf Stmt.mentions) (forInitializer depth) s := by
  refine meets_forInitializer (fun _ _ _ _ => .nil (Nat.le_refl _)) ?_ fun _ _ => ?_
  · exact fun token rest _ _ => varDeclaration_numbered depth { s with tokens := rest }
  · exact expressionStatement_numbered depth s

theorem optionalBefore_numbered (depth : Nat) (symbol : Symbol) (s : ReaderState) :
    NumbersWith (mentionsOf Expr.mentions) (optionalBefore depth symbol) s :=
  meets_optionalBefore (fun _ => .nil (Nat.le_refl _)) fun _ => assignment_numbered depth s

theorem parameters_ids : ∀ (depth count : Nat) (s : ReaderState),
    (parameters depth count).Meets s (fun _ s' => s'.nextId = s.nextId) (StopsFrom s.nextId)
  | 0, _, _ => meets_exhausted (Nat.le_refl _)
  | depth + 1, count, s => by
    have hcounted := ReaderState.counted_nextId s "parameters" count
    refine meets_parameters (meets_expectName_from (Nat.le_of_eq hcounted.symm) fun param rest => ?_)
    refine ⟨fun comma rest' _ _ => ?_, fun _ => hcounted⟩
    refine (parameters_ids depth (count + 1) _).mono (fun _ s₁ h => h.trans hcounted)
      fun _ s₁ h => ?_
    exact Nat.le_trans (Nat.le_of_eq hcounted.symm) h

theorem parameterList_ids (depth : Nat) (s : ReaderState) :
    (parameterList depth).Meets s (fun _ s' => s'.nextId = s.nextId) (StopsFrom s.nextId) :=
  meets_parameterList (fun _ => rfl) fun _ => parameters_ids depth 0 s

/-- The mention of a superclass. -/
def superclassMentions (superclass : Reference) : List Mention :=
  [⟨.read, superclass.id, superclass.name⟩]

theorem superclass_numbered (s : ReaderState) :
    NumbersWith (mentionsOf superclassMentions) superclass s := by
  refine meets_superclass (fun token rest _ _ => ?_) fun _ => .nil (Nat.le_refl _)
  exact meets_expectName_from (Nat.le_refl _) fun name rest' => .single _ _ _

theorem classDecl_mentions (name : Name) (superclass : Option Reference)
    (methods : List FunctionDecl) :
    (Stmt.classDecl ⟨name, superclass, methods⟩).mentions =
      mentionsOf superclassMentions superclass ++ FunctionDecl.mentionsEach methods := by
  cases superclass <;> rfl

theorem mentionsEach_toList (first : Option Stmt) :
    Stmt.mentionsEach first.toList = mentionsOf Stmt.mentions first := by
  cases first with
  | none => rfl
  | some s => exact List.append_nil _

/-- The increment stands behind the body in the tree and before it in the text. -/
theorem forLoop_mentions (initializer : Option Stmt) (condition increment : Option Expr)
    (body : Stmt) :
    (mentionsOf Stmt.mentions initializer ++ (mentionsOf Expr.mentions condition ++
      (mentionsOf Expr.mentions increment ++ body.mentions))).Perm
        (Stmt.forLoop initializer condition increment body).mentions := by
  have hloop : (mentionsOf Expr.mentions condition ++
      (mentionsOf Expr.mentions increment ++ body.mentions)).Perm
      (Stmt.forLoop none condition increment body).mentions := by
    have hcondition : (Stmt.forLoop none condition increment body).mentions =
        mentionsOf Expr.mentions condition ++ (Stmt.forLoop none none increment body).mentions := by
      cases condition <;> rfl
    rw [hcondition]
    refine List.Perm.append_left _ ?_
    cases increment with
    | none => exact .refl _
    | some step =>
      show (step.mentions ++ body.mentions).Perm (body.mentions ++ (step.mentions ++ []))
      rw [List.append_nil]
      exact List.perm_append_comm
  cases initializer with
  | none => exact hloop
  | some first =>
    show (first.mentions ++ _).Perm (first.mentions ++ (_ ++ []))
    rw [List.append_nil]
    exact hloop.append_left _

mutual

theorem declaration_numbered : ∀ (depth : Nat) (s : ReaderState),
    NumbersWith (mentionsOf Stmt.mentions) (declaration depth) s
  | 0, _ => meets_exhausted (Nat.le_refl _)
  | depth + 1, s => by
    refine meets_declaration (F := StopsFrom s.nextId) ?_ ?_ ?_ (fun _ _ _ => ?_)
      (fun _ _ hstop => .nil hstop) fun _ hstop => hstop
    · intro _ rest _ _
      refine meets_expectName_from (Nat.le_refl _) fun name rest' => ?_
      refine (superclass_numbered _).then (Nat.le_refl _) fun parent s₁ hparent => ?_
      refine meets_expectSymbol_from hparent.le fun rest => ?_
      refine (methods_numbered depth { s₁ with tokens := rest }).then hparent.le
        fun methods s₂ hmethods => ?_
      have hall := hparent.append hmethods
      refine meets_expectSymbol_from hall.le fun _ => ?_
      rw [mentionsOf, Option.map_some, Option.getD_some, classDecl_mentions]
      exact hall
    · exact fun token rest _ _ => function_numbered depth .function { s with tokens := rest }
    · exact fun token rest _ _ => varDeclaration_numbered depth { s with tokens := rest }
    · exact statement_numbered depth s

theorem declarations_numbered : ∀ (depth : Nat) (s : ReaderState),
    NumbersWith Stmt.mentionsEach (declarations depth) s
  | 0, _ => meets_exhausted (Nat.le_refl _)
  | depth + 1, s => by
    refine meets_declarations (fun _ => .nil (Nat.le_refl _)) fun _ => ?_
    refine (declaration_numbered depth s).then (Nat.le_refl _) fun first s₁ hfirst => ?_
    refine (declarations_numbered depth s₁).then hfirst.le fun others s₂ hothers => ?_
    rw [Stmt.mentionsEach_append, mentionsEach_toList]
    exact hfirst.append hothers

theorem block_numbered : ∀ (depth : Nat) (s : ReaderState),
    NumbersWith Stmt.mentionsEach (block depth) s
  | 0, _ => meets_exhausted (Nat.le_refl _)
  | depth + 1, s => by
    refine meets_block ((declarations_numbered depth s).then (Nat.le_refl _) fun body s₁ h => ?_)
    exact meets_expectSymbol_from h.le fun _ => h

theorem function_numbered : ∀ (depth : Nat) (role : FunctionRole) (s : ReaderState),
    NumbersWith FunctionDecl.mentions (function depth role) s
  | 0, _, _ => meets_exhausted (Nat.le_refl _)
  | depth + 1, role, s => by
    refine meets_function (meets_expectName_from (Nat.le_refl _) fun name rest => ?_)
    refine meets_expectSymbol_from (Nat.le_refl _) fun rest => ?_
    refine (parameterList_ids depth _).imp fun params s₁ hparams => ?_
    have hle : s.nextId ≤ s₁.nextId := Nat.le_of_eq hparams.symm
    refine meets_expectSymbol_from hle fun rest => meets_expectSymbol_from hle fun rest => ?_
    exact (block_numbered depth { s₁ with tokens := rest }).then hle fun body s₂ hbody =>
      hbody.later hle

theorem methods_numbered : ∀ (depth : Nat) (s : ReaderState),
    NumbersWith FunctionDecl.mentionsEach (methods depth) s
  | 0, _ => meets_exhausted (Nat.le_refl _)
  | depth + 1, s => by
    refine meets_methods (fun _ => .nil (Nat.le_refl _)) fun _ => ?_
    refine (function_numbered depth .method s).then (Nat.le_refl _) fun first s₁ hfirst => ?_
    exact (methods_numbered depth s₁).then hfirst.le fun others s₂ hothers => hfirst.append hothers

theorem statement_numbered : ∀ (depth : Nat) (s : ReaderState),
    NumbersWith Stmt.mentions (statement depth) s
  | 0, _ => meets_exhausted (Nat.le_refl _)
  | depth + 1, s => by
    refine meets_statement ?_ ?_ ?_ ?_ ?_ ?_ fun _ => expressionStatement_numbered depth s
    · exact fun token rest _ _ => printStatement_numbered depth { s with tokens := rest }
    · exact fun token rest _ _ => block_numbered depth { s with tokens := rest }
    · intro token rest _ _
      refine meets_expectSymbol_from (Nat.le_refl _) fun rest => ?_
      refine (assignment_numbered depth { s with tokens := rest }).then (Nat.le_refl _)
        fun condition s₁ hcondition => ?_
      refine meets_expectSymbol_from hcondition.le fun rest => ?_
      refine (statement_numbered depth { s₁ with tokens := rest }).then hcondition.le
        fun thenBranch s₂ hthen => ?_
      have hboth := hcondition.append hthen
      refine ⟨fun word rest _ _ => ?_, fun _ => hboth⟩
      exact (statement_numbered depth { s₂ with tokens := rest }).then hboth.le
        fun elseBranch s₃ helse => hboth.append helse
    · intro token rest _ _
      refine meets_expectSymbol_from (Nat.le_refl _) fun rest => ?_
      refine (assignment_numbered depth { s with tokens := rest }).then (Nat.le_refl _)
        fun condition s₁ hcondition => ?_
      refine meets_expectSymbol_from hcondition.le fun rest => ?_
      exact (statement_numbered depth { s₁ with tokens := rest }).then hcondition.le
        fun body s₂ hbody => hcondition.append hbody
    · intro token rest _ _
      refine meets_expectSymbol_from (Nat.le_refl _) fun rest => ?_
      refine (forInitializer_numbered depth { s with tokens := rest }).then (Nat.le_refl _)
        fun initializer s₁ hinitializer => ?_
      refine (optionalBefore_numbered depth .semicolon s₁).then hinitializer.le
        fun condition s₂ hcondition => ?_
      have h₂ := hinitializer.append hcondition
      refine meets_expectSymbol_from h₂.le fun rest => ?_
      refine (optionalBefore_numbered depth .rightParen { s₂ with tokens := rest }).then h₂.le
        fun increment s₃ hincrement => ?_
      have h₃ := h₂.append hincrement
      refine meets_expectSymbol_from h₃.le fun rest => ?_
      refine (statement_numbered depth { s₃ with tokens := rest }).then h₃.le
        fun body s₄ hbody => ?_
      refine (h₃.append hbody).perm ?_
      rw [List.append_assoc, List.append_assoc]
      exact forLoop_mentions initializer condition increment body
    · exact fun token rest _ _ => returnStatement_numbered depth token.line { s with tokens := rest }

end

theorem program_numbered : ∀ (depth : Nat) (s : ReaderState),
    NumbersWith Stmt.mentionsEach (program depth) s
  | 0, _ => meets_exhausted (Nat.le_refl _)
  | depth + 1, s => by
    refine meets_program (fun _ => .nil (Nat.le_refl _)) fun _ => ?_
    refine (declaration_numbered depth s).then (Nat.le_refl _) fun first s₁ hfirst => ?_
    refine (program_numbered depth s₁).then hfirst.le fun others s₂ hothers => ?_
    rw [Stmt.mentionsEach_append, mentionsEach_toList]
    exact hfirst.append hothers

end Reader

/-- A program that is read, with faults or without, has ids of its own. -/
theorem Program.read_numbered (n : Nat) (tokens : List Token) :
    Numbered n (read n tokens).nextId (Stmt.mentionsEach (read n tokens).program) := by
  have hnumbered := Reader.program_numbered (Reader.depthFor tokens) ⟨tokens, n, []⟩
  rw [read]
  cases hr : Reader.program (Reader.depthFor tokens) ⟨tokens, n, []⟩ with
  | ok program s => exact hnumbered.of_ok hr
  | error stop s => exact .nil (hnumbered.of_error hr)

end Lox
