/-
The grammar does not depend on lines and ids.

`Token.relabel` moves a token to a new line.  What the grammar derives from moved
tokens is the tree with its lines moved likewise:

* `Grammar.declarations_relabel` — programs;
* `Grammar.declarations_append` — one program after the other.
-/
import Lox.Proofs.Reading.Grammar
import Lox.Proofs.Relabelling.Syntax

namespace Lox

/-- The token on its new line. -/
def Token.relabel (r : Relabelling) (token : Token) : Token :=
  { token with line := r.line token.line }

namespace Grammar

variable {r : Relabelling} {ts us : List Token}

theorem length_relabelEach {n : Nat} {es : List Expr} (h : es.length ≤ n) :
    (Expr.relabelEach r es).length ≤ n := by
  rwa [Expr.relabelEach_eq_map, List.length_map]

theorem join_relabel {left right e : Expr} {line : Nat} {level : Level} {kind : Token.Kind}
    (h : Join left line right level kind e) :
    Join (left.relabel r) (r.line line) (right.relabel r) level kind (e.relabel r) := by
  cases h <;> constructor

mutual

theorem assignment_relabel : ∀ {ts : List Token} {e : Expr}, Assignment ts e →
    Assignment (ts.map (Token.relabel r)) (e.relabel r)
  | _, _, .operand h => .operand (operand_relabel h)
  | _, _, .toVariable hname hequal hvalue => .toVariable hname hequal (assignment_relabel hvalue)
  | _, _, .toProperty hobject hdot hname hequal hvalue => by
    rw [List.map_append]
    exact .toProperty (call_relabel hobject) hdot hname hequal (assignment_relabel hvalue)

theorem operand_relabel : ∀ {levels : List Level} {ts : List Token} {e : Expr},
    Operand levels ts e → Operand levels (ts.map (Token.relabel r)) (e.relabel r)
  | _, _, _, .unary h => .unary (unary_relabel h)
  | _, _, _, .tighter h => .tighter (operand_relabel h)
  | _, _, _, .join hleft hright hop => by
    rw [List.map_append, List.map_cons]
    exact .join (operand_relabel hleft) (operand_relabel hright) (join_relabel hop)

theorem unary_relabel : ∀ {ts : List Token} {e : Expr}, Unary ts e →
    Unary (ts.map (Token.relabel r)) (e.relabel r)
  | _, _, .operator hop h =>
    .operator hop (unary_relabel h)
  | _, _, .call h => .call (call_relabel h)

theorem call_relabel : ∀ {ts : List Token} {e : Expr}, Call ts e →
    Call (ts.map (Token.relabel r)) (e.relabel r)
  | _, _, .primary h => .primary (primary_relabel h)
  | _, _, .call hcallee hopening harguments hcount hclosing => by
    rw [List.map_append, List.map_cons, List.map_append]
    exact .call (call_relabel hcallee) hopening (arguments_relabel harguments)
      (length_relabelEach hcount) hclosing
  | _, _, .property hobject hdot hname => by
    rw [List.map_append]
    exact .property (call_relabel hobject) hdot hname

theorem arguments_relabel : ∀ {ts : List Token} {es : List Expr}, Arguments ts es →
    Arguments (ts.map (Token.relabel r)) (Expr.relabelEach r es)
  | _, _, .none => .none
  | _, _, .last h => .last (assignment_relabel h)
  | _, _, .more h hcomma hmore => by
    rw [List.map_append, List.map_cons]
    exact .more (assignment_relabel h) hcomma (arguments_relabel hmore)

theorem primary_relabel : ∀ {ts : List Token} {e : Expr}, Primary ts e →
    Primary (ts.map (Token.relabel r)) (e.relabel r)
  | _, _, .literal h => .literal h
  | _, _, .name h => .name h
  | _, _, .this h => .this h
  | _, _, .super h hdot hname => .super h hdot hname
  | _, _, .grouping hopening h hclosing => by
    rw [List.map_cons, List.map_append]
    exact .grouping hopening (assignment_relabel h) hclosing

end

theorem expressionStatement_relabel {s : Stmt} (h : ExpressionStatement ts s) :
    ExpressionStatement (ts.map (Token.relabel r)) (s.relabel r) := by
  obtain ⟨h, hsemicolon⟩ := h
  rw [List.map_append]
  exact .intro (assignment_relabel h) hsemicolon

theorem variable_relabel {s : Stmt} (h : Variable ts s) :
    Variable (ts.map (Token.relabel r)) (s.relabel r) := by
  cases h with
  | bare hname hsemicolon => exact .bare hname hsemicolon
  | withValue hname hequal h hsemicolon =>
    rw [List.map_cons, List.map_cons, List.map_append]
    exact .withValue hname hequal (assignment_relabel h) hsemicolon

theorem initializer_relabel {first : Option Stmt} (h : Initializer ts first) :
    Initializer (ts.map (Token.relabel r)) (first.map (Stmt.relabel r)) := by
  cases h with
  | none h => exact .none h
  | varDecl hword h => exact .varDecl hword (variable_relabel h)
  | expression h => exact .expression (expressionStatement_relabel h)

theorem optional_relabel {clause : Option Expr} (h : Grammar.Optional ts clause) :
    Grammar.Optional (ts.map (Token.relabel r)) (clause.map (Expr.relabel r)) := by
  cases h with
  | none => exact .none
  | some h => exact .some (assignment_relabel h)

theorem forTree_relabel {body tree : Stmt} {first : Option Stmt} {condition step : Option Expr}
    (h : ForTree body first condition step tree) :
    ForTree (body.relabel r) (first.map (Stmt.relabel r)) (condition.map (Expr.relabel r))
      (step.map (Expr.relabel r)) (tree.relabel r) := by
  rw [forTree_iff] at h ⊢
  rw [h, Stmt.forLoop_relabel]

theorem parameters_relabel : ∀ {ts : List Token} {names : List Name}, Parameters ts names →
    Parameters (ts.map (Token.relabel r)) (names.map (Name.relabel r))
  | _, _, .none => .none
  | _, _, .last h => .last h
  | _, _, .more h hcomma hmore => .more h hcomma (parameters_relabel hmore)

theorem superclass_relabel {parent : Option Reference} (h : Superclass ts parent) :
    Superclass (ts.map (Token.relabel r)) (parent.map (Reference.relabel r)) := by
  cases h with
  | none => exact .none
  | some hless hname => exact .some hless hname

mutual

theorem statement_relabel : ∀ {isOpen : Bool} {ts : List Token} {s : Stmt},
    Statement isOpen ts s → Statement isOpen (ts.map (Token.relabel r)) (s.relabel r)
  | _, _, _, .expression h => .expression (expressionStatement_relabel h)
  | _, _, _, .print hword h hsemicolon => by
    rw [List.map_cons, List.map_append]
    exact .print hword (assignment_relabel h) hsemicolon
  | _, _, _, .returnNothing hword hsemicolon => .returnNothing hword hsemicolon
  | _, _, _, .returnValue hword h hsemicolon => by
    rw [List.map_cons, List.map_append]
    exact .returnValue hword (assignment_relabel h) hsemicolon
  | _, _, _, .block hopening h hclosing => by
    rw [List.map_cons, List.map_append]
    exact .block hopening (declarations_relabel h) hclosing
  | _, _, _, .ifThen hword hopening hcondition hclosing hthen => by
    rw [List.map_cons, List.map_cons, List.map_append, List.map_cons]
    exact .ifThen hword hopening (assignment_relabel hcondition) hclosing
      (statement_relabel hthen)
  | _, _, _, .ifElse hword hopening hcondition hclosing hthen hother helse => by
    rw [List.map_cons, List.map_cons, List.map_append, List.map_cons, List.map_append,
      List.map_cons]
    exact .ifElse hword hopening (assignment_relabel hcondition) hclosing
      (statement_relabel hthen) hother (statement_relabel helse)
  | _, _, _, .whileLoop hword hopening hcondition hclosing hbody => by
    rw [List.map_cons, List.map_cons, List.map_append, List.map_cons]
    exact .whileLoop hword hopening (assignment_relabel hcondition) hclosing
      (statement_relabel hbody)
  | _, _, _, .forLoop hword hopening hinitializer hcondition hsemicolon hincrement hclosing
      hbody htree => by
    rw [List.map_cons, List.map_cons, List.map_append, List.map_append, List.map_cons,
      List.map_append, List.map_cons]
    exact .forLoop hword hopening (initializer_relabel hinitializer) (optional_relabel hcondition)
      hsemicolon (optional_relabel hincrement) hclosing (statement_relabel hbody)
      (forTree_relabel htree)

theorem declaration_relabel : ∀ {ts : List Token} {s : Stmt}, Declaration ts s →
    Declaration (ts.map (Token.relabel r)) (s.relabel r)
  | _, _, .cls hword hname hparent hopening hmethods hclosing => by
    rw [List.map_cons, List.map_cons, List.map_append, List.map_cons, List.map_append]
    exact .cls hword hname (superclass_relabel hparent) hopening (methods_relabel hmethods)
      hclosing
  | _, _, .function hword h => .function hword (function_relabel h)
  | _, _, .varDecl hword h => .varDecl hword (variable_relabel h)
  | _, _, .statement h => .statement (statement_relabel h)

theorem declarations_relabel : ∀ {ts : List Token} {ss : List Stmt}, Declarations ts ss →
    Declarations (ts.map (Token.relabel r)) (Stmt.relabelEach r ss)
  | _, _, .nil => .nil
  | _, _, .cons h hrest => by
    rw [List.map_append]
    exact .cons (declaration_relabel h) (declarations_relabel hrest)

theorem function_relabel : ∀ {ts : List Token} {f : FunctionDecl}, Function ts f →
    Function (ts.map (Token.relabel r)) (f.relabel r)
  | _, _, .intro hname hopening hparams hcount hclosing hbrace hbody hclosing' => by
    rw [List.map_cons, List.map_cons, List.map_append, List.map_cons, List.map_cons,
      List.map_append]
    exact .intro hname hopening (parameters_relabel hparams) (by rwa [List.length_map]) hclosing
      hbrace (declarations_relabel hbody) hclosing'

theorem methods_relabel : ∀ {ts : List Token} {fs : List FunctionDecl}, Methods ts fs →
    Methods (ts.map (Token.relabel r)) (FunctionDecl.relabelEach r fs)
  | _, _, .nil => .nil
  | _, _, .cons h hrest => by
    rw [List.map_append]
    exact .cons (function_relabel h) (methods_relabel hrest)

end

/-- Declarations may follow one another. -/
theorem declarations_append {ss : List Stmt} {ss' : List Stmt} (h : Declarations ts ss)
    (h' : Declarations us ss') : Declarations (ts ++ us) (ss ++ ss') := by
  induction ss generalizing ts with
  | nil =>
    cases h
    exact h'
  | cons s ss ih =>
    cases h with
    | cons h hrest =>
      rw [List.append_assoc]
      exact .cons h (ih hrest)

end Grammar

end Lox
