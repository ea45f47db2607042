/-
What the statements of a program declare.

The reader of a statement takes no declaration for a branch of an `if` or for the body of a
loop, and of a declaration with a fault nothing gets into the program.  So a statement
declares at most one name in the scope in which it is executed, its own.

* `Stmt.parts` — a statement and all statements in it, those in functions and methods too;
* `Regular` — each of these statements declares no other name than its own;
* `Reader.Ensures` — what holds of the value of a reader, if it ends;
* `Program.read_regular` — every program that is read is regular, with faults or without.
-/
import Lox.Proofs.Invariants.Evaluation
import Lox.Proofs.Reading.StatementRules
import Lox.Proofs.Scoping.Sites

namespace Lox

/-! ### Parts -/

mutual

/-- The statement, and all statements in it. -/
def Stmt.parts : Stmt → List Stmt
  | .expression value => [.expression value]
  | .print value => [.print value]
  | .varDecl name initializer => [.varDecl name initializer]
  | .block body => .block body :: Stmt.partsEach body
  | .ifElse condition thenBranch none => .ifElse condition thenBranch none :: thenBranch.parts
  | .ifElse condition thenBranch (some elseBranch) =>
    .ifElse condition thenBranch (some elseBranch) :: (thenBranch.parts ++ elseBranch.parts)
  | .whileLoop condition body => .whileLoop condition body :: body.parts
  | .funDecl function => .funDecl function :: function.parts
  | .returnValue line value => [.returnValue line value]
  | .classDecl declared => .classDecl declared :: declared.parts

/-- The statements, and all statements in them. -/
def Stmt.partsEach : List Stmt → List Stmt
  | [] => []
  | s :: ss => s.parts ++ Stmt.partsEach ss

/-- All statements in the body of the function. -/
def FunctionDecl.parts : FunctionDecl → List Stmt
  | ⟨_, _, body⟩ => Stmt.partsEach body

/-- All statements in the bodies of the functions. -/
def FunctionDecl.partsEach : List FunctionDecl → List Stmt
  | [] => []
  | f :: fs => f.parts ++ FunctionDecl.partsEach fs

/-- All statements in the methods of the class. -/
def ClassDecl.parts : ClassDecl → List Stmt
  | ⟨_, _, methods⟩ => FunctionDecl.partsEach methods

end

/-- The only name that the statement may declare in its scope is its own, if it has one. -/
def Stmt.DeclaresItself (s : Stmt) : Prop :=
  s.declaredNames = (s.declares?.map Name.text).toList

/-- Each of the statements declares no other name than its own. -/
def Regular (parts : List Stmt) : Prop :=
  ∀ part ∈ parts, part.DeclaresItself

theorem regular_nil : Regular [] :=
  List.forall_mem_nil _

theorem regular_cons {s : Stmt} {parts : List Stmt} :
    Regular (s :: parts) ↔ s.DeclaresItself ∧ Regular parts :=
  List.forall_mem_cons

theorem regular_append {parts parts' : List Stmt} :
    Regular (parts ++ parts') ↔ Regular parts ∧ Regular parts' :=
  List.forall_mem_append

theorem regular_singleton {s : Stmt} : Regular [s] ↔ s.DeclaresItself :=
  List.forall_mem_singleton

theorem regular_partsEach_cons {s : Stmt} {ss : List Stmt} :
    Regular (Stmt.partsEach (s :: ss)) ↔ Regular s.parts ∧ Regular (Stmt.partsEach ss) :=
  regular_append

theorem regular_partsEach_append {ss ss' : List Stmt} (h : Regular (Stmt.partsEach ss))
    (h' : Regular (Stmt.partsEach ss')) : Regular (Stmt.partsEach (ss ++ ss')) := by
  induction ss with
  | nil => exact h'
  | cons s ss ih =>
    obtain ⟨hs, hss⟩ := regular_partsEach_cons.mp h
    exact regular_partsEach_cons.mpr ⟨hs, ih hss⟩

/-- A statement that declares nothing, with parts that declare no other names than their
own. -/
structure Stmt.Silent (s : Stmt) : Prop where
  declaredNames : s.declaredNames = []
  regular : Regular s.parts

namespace Stmt

variable {condition : Expr} {body thenBranch elseBranch : Stmt} {ss : List Stmt}

theorem silent_block (h : Regular (partsEach ss)) : (Stmt.block ss).Silent :=
  ⟨rfl, regular_cons.mpr ⟨rfl, h⟩⟩

theorem Silent.whileLoop (h : body.Silent) : (Stmt.whileLoop condition body).Silent := by
  have hnames : (Stmt.whileLoop condition body).declaredNames = [] := h.declaredNames
  exact ⟨hnames, regular_cons.mpr ⟨hnames, h.regular⟩⟩

theorem Silent.ifThen (h : thenBranch.Silent) :
    (Stmt.ifElse condition thenBranch none).Silent := by
  have hnames : (Stmt.ifElse condition thenBranch none).declaredNames = [] := h.declaredNames
  exact ⟨hnames, regular_cons.mpr ⟨hnames, h.regular⟩⟩

theorem Silent.ifElse (h : thenBranch.Silent) (h' : elseBranch.Silent) :
    (Stmt.ifElse condition thenBranch (some elseBranch)).Silent := by
  have hnames : (Stmt.ifElse condition thenBranch (some elseBranch)).declaredNames = [] := by
    rw [Stmt.declaredNames, h.declaredNames, h'.declaredNames, List.append_nil]
  exact ⟨hnames, regular_cons.mpr ⟨hnames, regular_append.mpr ⟨h.regular, h'.regular⟩⟩⟩

/-- A `for` loop is made of blocks and a loop, so its first clause declares nothing outside. -/
theorem Silent.forLoop {initializer : Option Stmt} {condition increment : Option Expr}
    (hinitializer : Regular (partsEach initializer.toList)) (h : body.Silent) :
    (Stmt.forLoop initializer condition increment body).Silent := by
  -- without a first clause it is the loop alone
  have hloop : (Stmt.forLoop none condition increment body).Silent := by
    cases increment with
    | none => exact h.whileLoop
    | some step =>
      have hstep : Regular (partsEach [Stmt.expression step]) := regular_singleton.mpr rfl
      exact (silent_block (regular_partsEach_cons.mpr ⟨h.regular, hstep⟩)).whileLoop
  cases initializer with
  | none => exact hloop
  | some first =>
    have hrest : Regular (partsEach [Stmt.forLoop none condition increment body]) :=
      regular_partsEach_cons.mpr ⟨hloop.regular, regular_nil⟩
    exact silent_block (regular_partsEach_append hinitializer hrest)

end Stmt

/-! ### What is read -/

namespace Reader

variable {α : Type} {P : α → Prop}

/-- If the reader ends, its value has the property. -/
def Ensures (P : α → Prop) (reader : Reader α) (s : ReaderState) : Prop :=
  reader.Meets s (fun a _ => P a) fun _ _ => True

theorem ensures_exhausted (s : ReaderState) : Ensures P exhausted s :=
  meets_exhausted trivial

/-- After a reader whose value is of no account. -/
theorem meets_any {reader : Reader α} {s : ReaderState} {Q : α → ReaderState → Prop}
    (h : ∀ a s', Q a s') : reader.Meets s Q fun _ _ => True := by
  rw [Meets]
  split
  · exact h _ _
  · trivial

theorem expressionStatement_silent (depth : Nat) (s : ReaderState) :
    Ensures Stmt.Silent (expressionStatement depth) s :=
  meets_expressionStatement (meets_any fun _ _ => meets_any fun _ _ =>
    ⟨rfl, regular_singleton.mpr rfl⟩)

theorem printStatement_silent (depth : Nat) (s : ReaderState) :
    Ensures Stmt.Silent (printStatement depth) s :=
  meets_printStatement (meets_any fun _ _ => meets_any fun _ _ =>
    ⟨rfl, regular_singleton.mpr rfl⟩)

theorem returnStatement_silent (depth line : Nat) (s : ReaderState) :
    Ensures Stmt.Silent (returnStatement depth line) s := by
  refine meets_returnStatement (fun _ => ?_) fun _ => ?_
  · exact meets_any fun _ _ => ⟨rfl, regular_singleton.mpr rfl⟩
  · exact meets_any fun _ _ => meets_any fun _ _ => ⟨rfl, regular_singleton.mpr rfl⟩

theorem varDeclaration_regular (depth : Nat) (s : ReaderState) :
    Ensures (fun declared => Regular declared.parts) (varDeclaration depth) s := by
  refine meets_varDeclaration (meets_any fun name s₁ => ⟨fun _ _ _ _ => ?_, fun _ => ?_⟩)
  · exact meets_any fun _ _ => meets_any fun _ _ => regular_singleton.mpr rfl
  · exact meets_any fun _ _ => regular_singleton.mpr rfl

theorem forInitializer_regular (depth : Nat) (s : ReaderState) :
    Ensures (fun first => Regular (Stmt.partsEach first.toList)) (forInitializer depth) s := by
  refine meets_forInitializer (fun _ _ _ _ => regular_nil) (fun token rest _ _ => ?_) fun _ _ => ?_
  · exact (varDeclaration_regular depth { s with tokens := rest }).imp fun first _ hfirst =>
      regular_partsEach_cons.mpr ⟨hfirst, regular_nil⟩
  · exact (expressionStatement_silent depth s).imp fun first _ hfirst =>
      regular_partsEach_cons.mpr ⟨hfirst.regular, regular_nil⟩

mutual

theorem declaration_regular : ∀ (depth : Nat) (s : ReaderState),
    Ensures (fun found => Regular (Stmt.partsEach found.toList)) (declaration depth) s
  | 0, s => ensures_exhausted s
  | depth + 1, s => by
    -- of a declaration with a fault nothing is left
    refine meets_declaration (F := fun _ _ => True) ?_ ?_ ?_ (fun _ _ _ => ?_)
      (fun _ _ _ => regular_nil) fun _ _ => trivial
    · intro token rest _ _
      refine meets_any fun name s₁ => meets_any fun parent s₂ => meets_any fun _ s₃ => ?_
      refine (methods_regular depth s₃).imp fun methods s₄ hmethods => meets_any fun _ _ => ?_
      exact regular_partsEach_cons.mpr ⟨regular_cons.mpr ⟨rfl, hmethods⟩, regular_nil⟩
    · intro token rest _ _
      refine (function_regular depth .function { s with tokens := rest }).imp fun f _ hf => ?_
      exact regular_partsEach_cons.mpr ⟨regular_cons.mpr ⟨rfl, hf⟩, regular_nil⟩
    · intro token rest _ _
      refine (varDeclaration_regular depth { s with tokens := rest }).imp fun declared _ h => ?_
      exact regular_partsEach_cons.mpr ⟨h, regular_nil⟩
    · exact (statement_silent depth s).imp fun stmt _ h =>
        regular_partsEach_cons.mpr ⟨h.regular, regular_nil⟩

theorem declarations_regular : ∀ (depth : Nat) (s : ReaderState),
    Ensures (fun body => Regular (Stmt.partsEach body)) (declarations depth) s
  | 0, s => ensures_exhausted s
  | depth + 1, s => by
    refine meets_declarations (fun _ => regular_nil) fun _ => ?_
    refine (declaration_regular depth s).imp fun first s₁ hfirst => ?_
    exact (declarations_regular depth s₁).imp fun others _ hothers =>
      regular_partsEach_append hfirst hothers

theorem block_regular : ∀ (depth : Nat) (s : ReaderState),
    Ensures (fun body => Regular (Stmt.partsEach body)) (block depth) s
  | 0, s => ensures_exhausted s
  | depth + 1, s =>
    meets_block ((declarations_regular depth s).imp fun _ _ hbody => meets_any fun _ _ => hbody)

theorem function_regular : ∀ (depth : Nat) (role : FunctionRole) (s : ReaderState),
    Ensures (fun f => Regular f.parts) (function depth role) s
  | 0, _, s => ensures_exhausted s
  | depth + 1, role, s => by
    refine meets_function (meets_any fun name _ => meets_any fun _ _ => ?_)
    refine meets_any fun params _ => meets_any fun _ _ => meets_any fun _ s₁ => ?_
    exact block_regular depth s₁

theorem methods_regular : ∀ (depth : Nat) (s : ReaderState),
    Ensures (fun fs => Regular (FunctionDecl.partsEach fs)) (methods depth) s
  | 0, s => ensures_exhausted s
  | depth + 1, s => by
    refine meets_methods (fun _ => regular_nil) fun _ => ?_
    refine (function_regular depth .method s).imp fun first s₁ hfirst => ?_
    exact (methods_regular depth s₁).imp fun others _ hothers =>
      regular_append.mpr ⟨hfirst, hothers⟩

theorem statement_silent : ∀ (depth : Nat) (s : ReaderState),
    Ensures Stmt.Silent (statement depth) s
  | 0, s => ensures_exhausted s
  | depth + 1, s => by
    refine meets_statement ?_ ?_ ?_ ?_ ?_ ?_ fun _ => expressionStatement_silent depth s
    · exact fun token rest _ _ => printStatement_silent depth { s with tokens := rest }
    · exact fun token rest _ _ =>
        (block_regular depth { s with tokens := rest }).imp fun _ _ => Stmt.silent_block
    · intro token rest _ _
      refine meets_any fun _ _ => meets_any fun condition _ => meets_any fun _ s₁ => ?_
      refine (statement_silent depth s₁).imp fun thenBranch s₂ hthen => ⟨?_, fun _ => hthen.ifThen⟩
      exact fun word rest' _ _ => (statement_silent depth { s₂ with tokens := rest' }).imp
        fun elseBranch _ helse => hthen.ifElse helse
    · intro token rest _ _
      refine meets_any fun _ _ => meets_any fun condition _ => meets_any fun _ s₁ => ?_
      exact (statement_silent depth s₁).imp fun body _ hbody => hbody.whileLoop
    · intro token rest _ _
      refine meets_any fun _ s₁ => (forInitializer_regular depth s₁).imp ?_
      refine fun initializer _ hinitializer => meets_any fun condition _ => ?_
      refine meets_any fun _ _ => meets_any fun increment _ => meets_any fun _ s₂ => ?_
      exact (statement_silent depth s₂).imp fun body _ hbody => hbody.forLoop hinitializer
    · exact fun token rest _ _ => returnStatement_silent depth token.line { s with tokens := rest }

end

theorem program_regular : ∀ (depth : Nat) (s : ReaderState),
    Ensures (fun program => Regular (Stmt.partsEach program)) (program depth) s
  | 0, s => ensures_exhausted s
  | depth + 1, s => by
    refine meets_program (fun _ => regular_nil) fun _ => ?_
    refine (declaration_regular depth s).imp fun first s₁ hfirst => ?_
    exact (program_regular depth s₁).imp fun others _ hothers =>
      regular_partsEach_append hfirst hothers

end Reader

/-- In a program that is read each statement declares no other name than its own, however
deep it stands. -/
theorem Program.read_regular (n : Nat) (tokens : List Token) :
    Regular (Stmt.partsEach (Program.read n tokens).program) := by
  have hregular := Reader.program_regular (Reader.depthFor tokens) ⟨tokens, n, []⟩
  rw [read]
  cases hr : Reader.program (Reader.depthFor tokens) ⟨tokens, n, []⟩ with
  | ok program s => exact hregular.of_ok hr
  | error stop s => exact regular_nil

end Lox
