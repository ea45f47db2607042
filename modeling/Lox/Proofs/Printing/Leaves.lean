/-
The names and constants in a tree.

They stand in the tokens that the tree was read from, whether or not there were faults on
the way; only the condition of a loop that has none is put in.

* `Leaf`, `Stmt.leaves` — the names and constants in a tree;
* `Leaf.From` — a leaf that stands in the tokens;
* `Program.leaves_from` — the leaves of a program that is read stand in its tokens.
-/
import Lox.Proofs.Reading.Consumed
import Lox.Syntax.Text

namespace Lox

/-! ### Leaves -/

/-- A name or a constant in a tree. -/
inductive Leaf where
  | name (text : String)
  | literal (value : Literal)

mutual

/-- The names and constants in an expression. -/
def Expr.leaves : Expr → List Leaf
  | .literal value => [.literal value]
  | .grouping inner => inner.leaves
  | .unary _ _ operand => operand.leaves
  | .binary left _ _ right => left.leaves ++ right.leaves
  | .logical left _ right => left.leaves ++ right.leaves
  | .varRef target => [.name target.name.text]
  | .assign target value => .name target.name.text :: value.leaves
  | .call callee arguments _ => callee.leaves ++ Expr.leavesEach arguments
  | .get object name => object.leaves ++ [.name name.text]
  | .set object name value => object.leaves ++ .name name.text :: value.leaves
  | .thisRef _ _ => []
  | .superRef _ _ method => [.name method.text]

/-- The names and constants in several expressions. -/
def Expr.leavesEach : List Expr → List Leaf
  | [] => []
  | e :: es => e.leaves ++ Expr.leavesEach es

end

mutual

/-- The names and constants in a statement. -/
def Stmt.leaves : Stmt → List Leaf
  | .expression value => value.leaves
  | .print value => value.leaves
  | .varDecl name none => [.name name.text]
  | .varDecl name (some value) => .name name.text :: value.leaves
  | .block body => Stmt.leavesEach body
  | .ifElse condition thenBranch none => condition.leaves ++ thenBranch.leaves
  | .ifElse condition thenBranch (some elseBranch) =>
    condition.leaves ++ thenBranch.leaves ++ elseBranch.leaves
  | .whileLoop condition body => condition.leaves ++ body.leaves
  | .funDecl function => function.leaves
  | .returnValue _ none => []
  | .returnValue _ (some value) => value.leaves
  | .classDecl declared => declared.leaves

/-- The names and constants in several statements. -/
def Stmt.leavesEach : List Stmt → List Leaf
  | [] => []
  | s :: ss => s.leaves ++ Stmt.leavesEach ss

/-- The names and constants in a function. -/
def FunctionDecl.leaves : FunctionDecl → List Leaf
  | ⟨name, params, body⟩ =>
    .name name.text :: (params.map (fun param => .name param.text) ++ Stmt.leavesEach body)

/-- The names and constants in several functions. -/
def FunctionDecl.leavesEach : List FunctionDecl → List Leaf
  | [] => []
  | f :: fs => f.leaves ++ FunctionDecl.leavesEach fs

/-- The names and constants in a class. -/
def ClassDecl.leaves : ClassDecl → List Leaf
  | ⟨name, none, methods⟩ => .name name.text :: FunctionDecl.leavesEach methods
  | ⟨name, some superclass, methods⟩ =>
    .name name.text :: .name superclass.name.text :: FunctionDecl.leavesEach methods

end

/-- The leaf stands in the tokens, or is the condition of a loop that has none. -/
inductive Leaf.From (tokens : List Token) : Leaf → Prop
  | name {token : Token} (mem : token ∈ tokens) (kind : token.kind = .identifier) :
    From tokens (.name token.lexeme)
  | literal {token : Token} {value : Literal} (mem : token ∈ tokens)
    (kind : Literal.ofKind? token.kind = some value) : From tokens (.literal value)
  | always : From tokens (.literal (.boolean true))

/-- The leaves stand in the tokens, and the state has no others left. -/
structure Gathered (tokens : List Token) (leaves : List Leaf) (s : ReaderState) : Prop where
  within : s.tokens ⊆ tokens
  origin : ∀ leaf ∈ leaves, leaf.From tokens

namespace Gathered

variable {tokens : List Token} {leaves more : List Leaf} {s s' : ReaderState}

theorem nil (h : s.tokens ⊆ tokens) : Gathered tokens [] s :=
  ⟨h, nofun⟩

theorem single {leaf : Leaf} (h : s.tokens ⊆ tokens) (hleaf : leaf.From tokens) :
    Gathered tokens [leaf] s :=
  ⟨h, List.forall_mem_singleton.mpr hleaf⟩

theorem cons {leaf : Leaf} (hleaf : leaf.From tokens) (h : Gathered tokens leaves s) :
    Gathered tokens (leaf :: leaves) s :=
  ⟨h.within, List.forall_mem_cons.mpr ⟨hleaf, h.origin⟩⟩

/-- Leaves that were read before. -/
theorem append (h : Gathered tokens leaves s) (h' : Gathered tokens more s') :
    Gathered tokens (leaves ++ more) s' :=
  ⟨h'.within, List.forall_mem_append.mpr ⟨h.origin, h'.origin⟩⟩

/-- The same leaves, with other tokens left. -/
theorem move (h : Gathered tokens leaves s) (h' : s'.tokens ⊆ tokens) :
    Gathered tokens leaves s' :=
  ⟨h', h.origin⟩

end Gathered

namespace Reader

variable {α : Type} {ts : List Token} {s s₁ s₂ s₃ : ReaderState}

/-- A stop with no other tokens left than these. -/
def StopsWithin (ts : List Token) (_ : Stop) (s : ReaderState) : Prop :=
  s.tokens ⊆ ts

/-- The leaves of what is read stand in the tokens. -/
def Gathers (ts : List Token) (leaves : α → List Leaf) (reader : Reader α) (s : ReaderState) :
    Prop :=
  reader.Meets s (fun a s' => Gathered ts (leaves a) s') (StopsWithin ts)

theorem within_of_cons {token : Token} {rest : List Token} (hs : s.tokens = token :: rest)
    (h : s.tokens ⊆ ts) : token ∈ ts ∧ rest ⊆ ts :=
  List.cons_subset.mp (hs ▸ h)

theorem meets_expect_within {Q : Token → ReaderState → Prop} {kind : Token.Kind} {what : String}
    (hs : s₁.tokens ⊆ ts)
    (next : ∀ token rest, token ∈ ts → token.kind = kind → rest ⊆ ts →
      Q token { s₁ with tokens := rest }) :
    (expect kind what).Meets s₁ Q (StopsWithin ts) :=
  meets_expect (fun token rest htokens hk =>
    next token rest (within_of_cons htokens hs).1 hk (within_of_cons htokens hs).2) fun _ => hs

theorem meets_expectSymbol_within {Q : Unit → ReaderState → Prop} {symbol : Symbol}
    {what : String} (hs : s₁.tokens ⊆ ts)
    (next : ∀ rest, rest ⊆ ts → Q () { s₁ with tokens := rest }) :
    (expectSymbol symbol what).Meets s₁ Q (StopsWithin ts) :=
  meets_expectSymbol (fun _ rest htokens _ => next rest (within_of_cons htokens hs).2) fun _ => hs

theorem meets_expectName_within {Q : Name → ReaderState → Prop} {what : String}
    (hs : s₁.tokens ⊆ ts)
    (next : ∀ name rest, (Leaf.name name.text).From ts → rest ⊆ ts →
      Q name { s₁ with tokens := rest }) :
    (expectName what).Meets s₁ Q (StopsWithin ts) :=
  meets_expectName (fun _ rest htokens hk => next _ rest
    (.name (within_of_cons htokens hs).1 hk) (within_of_cons htokens hs).2) fun _ => hs

/-! ### Expressions -/

theorem assigned_gathered {equals : Token} {target value : Expr}
    (htarget : Gathered ts target.leaves s₁) (hvalue : Gathered ts value.leaves s₂) :
    Assigned (fun e s' => Gathered ts e.leaves s') equals target value s₂ := by
  cases target with
  | varRef reference => exact htarget.append hvalue
  | get object name =>
    have hall := htarget.append hvalue
    rwa [Expr.leaves, List.append_assoc] at hall
  | _ => exact htarget.move hvalue.within

theorem join_leaves (left : Expr) (line : Nat) (right : Expr) (connective : Connective) :
    (connective.join left line right).leaves = left.leaves ++ right.leaves := by
  cases connective <;> rfl

mutual

theorem assignment_gathers : ∀ (depth : Nat) (s : ReaderState), s.tokens ⊆ ts →
    Gathers ts Expr.leaves (assignment depth) s
  | 0, _, hs => meets_exhausted hs
  | depth + 1, s, hs => by
    refine meets_assignment ((operand_gathers depth Tier.all s hs).imp fun target s₁ htarget => ?_)
    refine ⟨fun equals rest htokens _ => ?_, fun _ => htarget⟩
    have hrest := (within_of_cons htokens htarget.within).2
    exact (assignment_gathers depth _ hrest).imp fun value s₂ hvalue =>
      assigned_gathered htarget hvalue

theorem operand_gathers : ∀ (depth : Nat) (tiers : List Tier) (s : ReaderState), s.tokens ⊆ ts →
    Gathers ts Expr.leaves (operand depth tiers) s
  | 0, _, _, hs => by
    rw [operand]
    exact meets_exhausted hs
  | depth + 1, [], s, hs => meets_operand_nil (unary_gathers depth s hs)
  | depth + 1, tier :: tiers, s, hs =>
    meets_operand_cons ((operand_gathers depth tiers s hs).imp fun left s₁ hleft =>
      joined_gathers depth tier tiers left s₁ hleft)

theorem joined_gathers : ∀ (depth : Nat) (tier : Tier) (tiers : List Tier) (left : Expr)
    (s : ReaderState), Gathered ts left.leaves s →
    Gathers ts Expr.leaves (joined depth tier tiers left) s
  | 0, _, _, _, _, h => meets_exhausted h.within
  | depth + 1, tier, tiers, left, s, h => by
    refine meets_joined (fun token rest connective htokens _ => ?_) fun _ => h
    have hrest := (within_of_cons htokens h.within).2
    refine (operand_gathers depth tiers { s with tokens := rest } hrest).imp
      fun right s₁ hright => joined_gathers depth tier tiers _ s₁ ?_
    rw [join_leaves]
    exact h.append hright

theorem unary_gathers : ∀ (depth : Nat) (s : ReaderState), s.tokens ⊆ ts →
    Gathers ts Expr.leaves (unary depth) s
  | 0, _, hs => meets_exhausted hs
  | depth + 1, s, hs => by
    refine meets_unary (fun token rest op htokens _ => ?_) fun _ => ?_
    · exact unary_gathers depth { s with tokens := rest } (within_of_cons htokens hs).2
    · exact (primary_gathers depth s hs).imp fun callee s₁ hcallee =>
        applied_gathers depth callee s₁ hcallee

theorem applied_gathers : ∀ (depth : Nat) (callee : Expr) (s : ReaderState),
    Gathered ts callee.leaves s → Gathers ts Expr.leaves (applied depth callee) s
  | 0, _, _, h => meets_exhausted h.within
  | depth + 1, callee, s, h => by
    refine meets_applied ?_ ?_ ?_ fun _ => h
    · intro token rest htokens _ paren rest' hrest _
      have hmore := (within_of_cons htokens h.within).2
      rw [hrest] at hmore
      -- A call without arguments has no other leaves than its callee.
      refine applied_gathers depth (.call callee [] paren.line) { s with tokens := rest' } ?_
      rw [Expr.leaves, Expr.leavesEach, List.append_nil]
      exact h.move (List.cons_subset.mp hmore).2
    · intro token rest htokens _ _
      have hrest := (within_of_cons htokens h.within).2
      refine (arguments_gathers depth 0 { s with tokens := rest } hrest).imp
        fun arguments s₁ harguments => ?_
      refine meets_expect_within harguments.within fun paren rest' _ _ hrest' => ?_
      exact applied_gathers depth (.call callee arguments paren.line) { s₁ with tokens := rest' }
        ((h.append harguments).move hrest')
    · intro token rest htokens _
      refine meets_expectName_within (within_of_cons htokens h.within).2
        fun name rest' hname hrest' => ?_
      exact applied_gathers depth (.get callee name) { s with tokens := rest' }
        (h.append (.single hrest' hname))

theorem arguments_gathers : ∀ (depth count : Nat) (s : ReaderState), s.tokens ⊆ ts →
    Gathers ts Expr.leavesEach (arguments depth count) s
  | 0, _, _, hs => meets_exhausted hs
  | depth + 1, count, s, hs => by
    rw [← ReaderState.counted_tokens s "arguments" count] at hs
    refine meets_arguments ((assignment_gathers depth _ hs).imp fun e s₁ he => ?_)
    refine ⟨fun comma rest htokens _ => ?_, fun _ => he.append (.nil he.within)⟩
    have hrest := (within_of_cons htokens he.within).2
    exact (arguments_gathers depth (count + 1) { s₁ with tokens := rest } hrest).imp
      fun es s₂ hes => he.append hes

theorem primary_gathers : ∀ (depth : Nat) (s : ReaderState), s.tokens ⊆ ts →
    Gathers ts Expr.leaves (primary depth) s
  | 0, _, hs => meets_exhausted hs
  | depth + 1, s, hs => by
    refine meets_primary ?_ ?_ ?_ ?_ ?_ fun _ => hs
    · intro token rest value htokens hvalue
      obtain ⟨htoken, hrest⟩ := within_of_cons htokens hs
      exact .single hrest (.literal htoken hvalue)
    · intro token rest htokens _
      have hrest := (within_of_cons htokens hs).2
      refine (assignment_gathers depth { s with tokens := rest } hrest).imp fun inner s₁ hinner => ?_
      exact meets_expectSymbol_within hinner.within fun _ hrest' => hinner.move hrest'
    · intro token rest htokens hk
      obtain ⟨htoken, hrest⟩ := within_of_cons htokens hs
      exact .single hrest (.name htoken hk)
    · exact fun token rest htokens _ => .nil (within_of_cons htokens hs).2
    · intro token rest htokens _
      refine meets_expectSymbol_within (within_of_cons htokens hs).2 fun rest' hrest' => ?_
      exact meets_expectName_within hrest' fun name rest'' hname hrest'' => .single hrest'' hname

end

/-! ### Statements -/

/-- The leaves of something that may be missing. -/
def leavesOf (leaves : α → List Leaf) (found : Option α) : List Leaf :=
  (found.map leaves).getD []

theorem expressionStatement_gathers (depth : Nat) (s : ReaderState) (hs : s.tokens ⊆ ts) :
    Gathers ts Stmt.leaves (expressionStatement depth) s :=
  meets_expressionStatement ((assignment_gathers depth s hs).imp fun _ _ h =>
    meets_expectSymbol_within h.within fun _ hrest => h.move hrest)

theorem printStatement_gathers (depth : Nat) (s : ReaderState) (hs : s.tokens ⊆ ts) :
    Gathers ts Stmt.leaves (printStatement depth) s :=
  meets_printStatement ((assignment_gathers depth s hs).imp fun _ _ h =>
    meets_expectSymbol_within h.within fun _ hrest => h.move hrest)

theorem returnStatement_gathers (depth line : Nat) (s : ReaderState) (hs : s.tokens ⊆ ts) :
    Gathers ts Stmt.leaves (returnStatement depth line) s := by
  refine meets_returnStatement (fun _ => ?_) fun _ => ?_
  · exact meets_expectSymbol_within hs fun _ hrest => .nil hrest
  · exact (assignment_gathers depth s hs).imp fun value s₁ h =>
      meets_expectSymbol_within h.within fun _ hrest => h.move hrest

theorem varDeclaration_gathers (depth : Nat) (s : ReaderState) (hs : s.tokens ⊆ ts) :
    Gathers ts Stmt.leaves (varDeclaration depth) s := by
  refine meets_varDeclaration (meets_expectName_within hs fun name rest hname hrest => ⟨?_, ?_⟩)
  · intro equal rest' htokens _
    have hrest' := (within_of_cons htokens hrest).2
    refine (assignment_gathers depth { s with tokens := rest' } hrest').imp fun value s₁ h => ?_
    refine meets_expectSymbol_within h.within fun rest'' hrest'' => ?_
    exact (h.move hrest'').cons hname
  · exact fun _ => meets_expectSymbol_within hrest fun _ hrest' => .single hrest' hname

theorem forInitializer_gathers (depth : Nat) (s : ReaderState) (hs : s.tokens ⊆ ts) :
    Gathers ts (leavesOf Stmt.leaves) (forInitializer depth) s := by
  refine meets_forInitializer (fun token rest htokens _ => .nil (within_of_cons htokens hs).2) ?_
    fun _ _ => expressionStatement_gathers depth s hs
  exact fun token rest htokens _ =>
    varDeclaration_gathers depth { s with tokens := rest } (within_of_cons htokens hs).2

theorem optionalBefore_gathers (depth : Nat) (symbol : Symbol) (s : ReaderState)
    (hs : s.tokens ⊆ ts) : Gathers ts (leavesOf Expr.leaves) (optionalBefore depth symbol) s :=
  meets_optionalBefore (fun _ => .nil hs) fun _ => assignment_gathers depth s hs

/-- The leaves of parameters. -/
def parameterLeaves (params : List Name) : List Leaf :=
  params.map fun param => .name param.text

theorem parameters_gathers : ∀ (depth count : Nat) (s : ReaderState), s.tokens ⊆ ts →
    Gathers ts parameterLeaves (parameters depth count) s
  | 0, _, _, hs => meets_exhausted hs
  | depth + 1, count, s, hs => by
    rw [← ReaderState.counted_tokens s "parameters" count] at hs
    refine meets_parameters (meets_expectName_within hs fun param rest hparam hrest => ?_)
    refine ⟨fun comma rest' htokens _ => ?_, fun _ => .single hrest hparam⟩
    have hrest' := (within_of_cons htokens hrest).2
    exact (parameters_gathers depth (count + 1) _ hrest').imp fun others s₁ hothers =>
      hothers.cons hparam

theorem parameterList_gathers (depth : Nat) (s : ReaderState) (hs : s.tokens ⊆ ts) :
    Gathers ts parameterLeaves (parameterList depth) s :=
  meets_parameterList (fun _ => .nil hs) fun _ => parameters_gathers depth 0 s hs

/-- The leaf of a superclass. -/
def superclassLeaves (superclass : Reference) : List Leaf :=
  [.name superclass.name.text]

theorem superclass_gathers (s : ReaderState) (hs : s.tokens ⊆ ts) :
    Gathers ts (leavesOf superclassLeaves) superclass s := by
  refine meets_superclass (fun token rest htokens _ => ?_) fun _ => .nil hs
  exact meets_expectName_within (within_of_cons htokens hs).2 fun name rest' hname hrest' =>
    .single hrest' hname

theorem classDecl_leaves (name : Name) (superclass : Option Reference)
    (methods : List FunctionDecl) :
    (Stmt.classDecl ⟨name, superclass, methods⟩).leaves =
      .name name.text :: (leavesOf superclassLeaves superclass ++
        FunctionDecl.leavesEach methods) := by
  cases superclass <;> rfl

theorem leavesEach_append (ss ss' : List Stmt) :
    Stmt.leavesEach (ss ++ ss') = Stmt.leavesEach ss ++ Stmt.leavesEach ss' := by
  induction ss with
  | nil => rfl
  | cons s ss ih => rw [List.cons_append, Stmt.leavesEach, Stmt.leavesEach, ih, List.append_assoc]

theorem leavesEach_toList (first : Option Stmt) :
    Stmt.leavesEach first.toList = leavesOf Stmt.leaves first := by
  cases first with
  | none => rfl
  | some s => exact List.append_nil _

/-- A loop has the leaves of its clauses and its body, and a condition in any case. -/
theorem forLoop_leaves (initializer : Option Stmt) (condition increment : Option Expr)
    (body : Stmt) :
    (Stmt.forLoop initializer condition increment body).leaves =
      leavesOf Stmt.leaves initializer ++
        ((condition.map Expr.leaves).getD [.literal (.boolean true)] ++
          (body.leaves ++ leavesOf Expr.leaves increment)) := by
  cases initializer <;> cases condition <;> cases increment <;>
    simp [Stmt.forLoop, Stmt.leaves, Stmt.leavesEach, Expr.leaves, leavesOf]

theorem forLoop_gathered {initializer : Option Stmt} {condition increment : Option Expr}
    {body : Stmt} (hinitializer : Gathered ts (leavesOf Stmt.leaves initializer) s)
    (hcondition : Gathered ts (leavesOf Expr.leaves condition) s₁)
    (hincrement : Gathered ts (leavesOf Expr.leaves increment) s₂)
    (hbody : Gathered ts body.leaves s₃) :
    Gathered ts (Stmt.forLoop initializer condition increment body).leaves s₃ := by
  -- In the tree the increment stands after the body, though it was read before.
  have hclauses := (hbody.append (hincrement.move hbody.within))
  rw [forLoop_leaves]
  refine hinitializer.append ?_
  cases condition with
  | none => exact hclauses.cons .always
  | some condition => exact hcondition.append hclauses

theorem resume_subset (tokens : List Token) : resume tokens ⊆ tokens := by
  by_cases h : AtEnd tokens
  · rw [resume_of_atEnd h]
    exact List.Subset.refl _
  · obtain ⟨skipped, htokens, -⟩ := resume_skips h
    intro token htoken
    rw [htokens]
    exact List.mem_append_right _ htoken

mutual

theorem declaration_gathers : ∀ (depth : Nat) (s : ReaderState), s.tokens ⊆ ts →
    Gathers ts (leavesOf Stmt.leaves) (declaration depth) s
  | 0, _, hs => meets_exhausted hs
  | depth + 1, s, hs => by
    refine meets_declaration (F := StopsWithin ts) ?_ ?_ ?_ (fun _ _ _ => ?_)
      (fun _ s₁ hstop => .nil (List.Subset.trans (resume_subset s₁.tokens) hstop)) fun _ hstop => hstop
    · intro token rest htokens _
      refine meets_expectName_within (within_of_cons htokens hs).2 fun name rest' hname hrest' => ?_
      refine (superclass_gathers _ hrest').imp fun parent s₁ hparent => ?_
      refine meets_expectSymbol_within hparent.within fun rest₁ hrest₁ => ?_
      refine (methods_gathers depth { s₁ with tokens := rest₁ } hrest₁).imp
        fun methods s₂ hmethods => ?_
      refine meets_expectSymbol_within hmethods.within fun rest₂ hrest₂ => ?_
      rw [leavesOf, Option.map_some, Option.getD_some, classDecl_leaves]
      exact (hparent.append (hmethods.move hrest₂)).cons hname
    · exact fun token rest htokens _ =>
        function_gathers depth .function { s with tokens := rest } (within_of_cons htokens hs).2
    · exact fun token rest htokens _ =>
        varDeclaration_gathers depth { s with tokens := rest } (within_of_cons htokens hs).2
    · exact statement_gathers depth s hs

theorem declarations_gathers : ∀ (depth : Nat) (s : ReaderState), s.tokens ⊆ ts →
    Gathers ts Stmt.leavesEach (declarations depth) s
  | 0, _, hs => meets_exhausted hs
  | depth + 1, s, hs => by
    refine meets_declarations (fun _ => .nil hs) fun _ => ?_
    refine (declaration_gathers depth s hs).imp fun first s₁ hfirst => ?_
    refine (declarations_gathers depth s₁ hfirst.within).imp fun others s₂ hothers => ?_
    rw [leavesEach_append, leavesEach_toList]
    exact hfirst.append hothers

theorem block_gathers : ∀ (depth : Nat) (s : ReaderState), s.tokens ⊆ ts →
    Gathers ts Stmt.leavesEach (block depth) s
  | 0, _, hs => meets_exhausted hs
  | depth + 1, s, hs =>
    meets_block ((declarations_gathers depth s hs).imp fun _ _ h =>
      meets_expectSymbol_within h.within fun _ hrest => h.move hrest)

theorem function_gathers : ∀ (depth : Nat) (role : FunctionRole) (s : ReaderState),
    s.tokens ⊆ ts → Gathers ts FunctionDecl.leaves (function depth role) s
  | 0, _, _, hs => meets_exhausted hs
  | depth + 1, role, s, hs => by
    refine meets_function (meets_expectName_within hs fun name rest hname hrest => ?_)
    refine meets_expectSymbol_within hrest fun rest₁ hrest₁ => ?_
    refine (parameterList_gathers depth _ hrest₁).imp fun params s₁ hparams => ?_
    refine meets_expectSymbol_within hparams.within fun rest₂ hrest₂ => ?_
    refine meets_expectSymbol_within hrest₂ fun rest₃ hrest₃ => ?_
    exact (block_gathers depth { s₁ with tokens := rest₃ } hrest₃).imp fun body s₂ hbody =>
      (hparams.append hbody).cons hname

theorem methods_gathers : ∀ (depth : Nat) (s : ReaderState), s.tokens ⊆ ts →
    Gathers ts FunctionDecl.leavesEach (methods depth) s
  | 0, _, hs => meets_exhausted hs
  | depth + 1, s, hs => by
    refine meets_methods (fun _ => .nil hs) fun _ => ?_
    refine (function_gathers depth .method s hs).imp fun first s₁ hfirst => ?_
    exact (methods_gathers depth s₁ hfirst.within).imp fun others s₂ hothers =>
      hfirst.append hothers

theorem statement_gathers : ∀ (depth : Nat) (s : ReaderState), s.tokens ⊆ ts →
    Gathers ts Stmt.leaves (statement depth) s
  | 0, _, hs => meets_exhausted hs
  | depth + 1, s, hs => by
    refine meets_statement ?_ ?_ ?_ ?_ ?_ ?_ fun _ => expressionStatement_gathers depth s hs
    · exact fun token rest htokens _ =>
        printStatement_gathers depth { s with tokens := rest } (within_of_cons htokens hs).2
    · exact fun token rest htokens _ =>
        block_gathers depth { s with tokens := rest } (within_of_cons htokens hs).2
    · intro token rest htokens _
      refine meets_expectSymbol_within (within_of_cons htokens hs).2 fun rest₁ hrest₁ => ?_
      refine (assignment_gathers depth _ hrest₁).imp fun condition s₁ hcondition => ?_
      refine meets_expectSymbol_within hcondition.within fun rest₂ hrest₂ => ?_
      refine (statement_gathers depth { s₁ with tokens := rest₂ } hrest₂).imp
        fun thenBranch s₂ hthen => ?_
      have hboth := hcondition.append hthen
      refine ⟨fun word rest₃ htokens₃ _ => ?_, fun _ => hboth⟩
      have hrest₃ := (within_of_cons htokens₃ hthen.within).2
      exact (statement_gathers depth { s₂ with tokens := rest₃ } hrest₃).imp
        fun elseBranch s₃ helse => hboth.append helse
    · intro token rest htokens _
      refine meets_expectSymbol_within (within_of_cons htokens hs).2 fun rest₁ hrest₁ => ?_
      refine (assignment_gathers depth _ hrest₁).imp fun condition s₁ hcondition => ?_
      refine meets_expectSymbol_within hcondition.within fun rest₂ hrest₂ => ?_
      exact (statement_gathers depth { s₁ with tokens := rest₂ } hrest₂).imp
        fun body s₂ hbody => hcondition.append hbody
    · intro token rest htokens _
      refine meets_expectSymbol_within (within_of_cons htokens hs).2 fun rest₁ hrest₁ => ?_
      refine (forInitializer_gathers depth _ hrest₁).imp fun initializer s₁ hinitializer => ?_
      refine (optionalBefore_gathers depth .semicolon s₁ hinitializer.within).imp
        fun condition s₂ hcondition => ?_
      refine meets_expectSymbol_within hcondition.within fun rest₂ hrest₂ => ?_
      refine (optionalBefore_gathers depth .rightParen { s₂ with tokens := rest₂ } hrest₂).imp
        fun increment s₃ hincrement => ?_
      refine meets_expectSymbol_within hincrement.within fun rest₃ hrest₃ => ?_
      exact (statement_gathers depth { s₃ with tokens := rest₃ } hrest₃).imp fun body s₄ hbody =>
        forLoop_gathered hinitializer hcondition hincrement hbody
    · exact fun token rest htokens _ => returnStatement_gathers depth token.line
        { s with tokens := rest } (within_of_cons htokens hs).2

end

theorem program_gathers : ∀ (depth : Nat) (s : ReaderState), s.tokens ⊆ ts →
    Gathers ts Stmt.leavesEach (program depth) s
  | 0, _, hs => meets_exhausted hs
  | depth + 1, s, hs => by
    refine meets_program (fun _ => .nil hs) fun _ => ?_
    refine (declaration_gathers depth s hs).imp fun first s₁ hfirst => ?_
    -- What an abandoned declaration had read is not in the program.
    refine (program_gathers depth s₁ hfirst.within).imp fun others s₂ hothers => ?_
    rw [leavesEach_append, leavesEach_toList]
    exact hfirst.append hothers

end Reader

/-- The names and constants of a program that is read, with faults or without, stand in its
tokens. -/
theorem Program.leaves_from (n : Nat) (tokens : List Token) :
    ∀ leaf ∈ Stmt.leavesEach (read n tokens).program, leaf.From tokens := by
  have hgathers : Reader.Gathers tokens Stmt.leavesEach
      (Reader.program (Reader.depthFor tokens)) ⟨tokens, n, []⟩ :=
    Reader.program_gathers _ _ (List.Subset.refl tokens)
  rw [read]
  cases hr : Reader.program (Reader.depthFor tokens) ⟨tokens, n, []⟩ with
  | ok program s => exact (hgathers.of_ok hr).origin
  | error stop s => exact List.forall_mem_nil _

end Lox
