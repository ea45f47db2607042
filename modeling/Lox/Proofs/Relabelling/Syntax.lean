/-
Laws of relabelling.

* `Relabelling.anonymous` gives all references the same id, so two trees are the
  same up to ids when it makes them equal;
* `Program.relabel_relabel` — one relabelling after another is one relabelling;
* `Program.relabel_eq_self` — a program does not change if its mentions do not.
-/
import Lox.Syntax.Declaration
import Lox.Syntax.Mentions
import Lox.Syntax.Relabelling

namespace Lox

namespace Relabelling

/-- Forgets which reference is which. -/
def anonymous : Relabelling :=
  ⟨fun line => line, fun _ => 0⟩

/-- Changes lines only. -/
def lines (f : Nat → Nat) : Relabelling :=
  ⟨f, fun id => id⟩

/-- The second relabelling after the first. -/
def comp (s r : Relabelling) : Relabelling :=
  ⟨s.line ∘ r.line, s.id ∘ r.id⟩

end Relabelling

variable {r : Relabelling}

@[simp] theorem Name.relabel_text (name : Name) : (name.relabel r).text = name.text := rfl

@[simp] theorem Name.relabel_line (name : Name) : (name.relabel r).line = r.line name.line := rfl

@[simp] theorem Reference.relabel_id (target : Reference) :
    (target.relabel r).id = r.id target.id := rfl

@[simp] theorem Reference.relabel_name (target : Reference) :
    (target.relabel r).name = target.name.relabel r := rfl

theorem Expr.relabelEach_eq_map (es : List Expr) :
    Expr.relabelEach r es = es.map (Expr.relabel r) := by
  induction es with
  | nil => rfl
  | cons e es ih => rw [Expr.relabelEach, ih, List.map_cons]

theorem Stmt.relabelEach_eq_map (ss : List Stmt) :
    Stmt.relabelEach r ss = ss.map (Stmt.relabel r) := by
  induction ss with
  | nil => rfl
  | cons s ss ih => rw [Stmt.relabelEach, ih, List.map_cons]

theorem FunctionDecl.relabelEach_eq_map (fs : List FunctionDecl) :
    FunctionDecl.relabelEach r fs = fs.map (FunctionDecl.relabel r) := by
  induction fs with
  | nil => rfl
  | cons f fs ih => rw [FunctionDecl.relabelEach, ih, List.map_cons]

theorem FunctionDecl.relabel_eq (f : FunctionDecl) :
    f.relabel r =
      ⟨f.name.relabel r, f.params.map (Name.relabel r), Stmt.relabelEach r f.body⟩ := by
  cases f
  rw [FunctionDecl.relabel]

@[simp] theorem FunctionDecl.relabel_name (f : FunctionDecl) :
    (f.relabel r).name = f.name.relabel r := by
  rw [relabel_eq]

@[simp] theorem FunctionDecl.relabel_isInitializer (f : FunctionDecl) :
    (f.relabel r).isInitializer = f.isInitializer := by
  rw [relabel_eq]
  rfl

theorem ClassDecl.relabel_eq (c : ClassDecl) :
    c.relabel r =
      ⟨c.name.relabel r, c.superclass.map (Reference.relabel r),
        FunctionDecl.relabelEach r c.methods⟩ := by
  cases c
  rw [ClassDecl.relabel]

@[simp] theorem ClassDecl.relabel_name (c : ClassDecl) :
    (c.relabel r).name = c.name.relabel r := by
  rw [relabel_eq]

theorem Connective.join_relabel (left : Expr) (line : Nat) (right : Expr)
    (connective : Connective) :
    (connective.join left line right).relabel r =
      connective.join (left.relabel r) (r.line line) (right.relabel r) := by
  cases connective <;> rfl

theorem Stmt.forLoop_relabel (initializer : Option Stmt) (condition increment : Option Expr)
    (body : Stmt) :
    (Stmt.forLoop initializer condition increment body).relabel r =
      Stmt.forLoop (initializer.map (Stmt.relabel r)) (condition.map (Expr.relabel r))
        (increment.map (Expr.relabel r)) (body.relabel r) := by
  cases initializer <;> cases condition <;> cases increment <;> rfl

/-! ### One relabelling after another -/

variable (s : Relabelling)

mutual

theorem Expr.relabel_relabel : ∀ e : Expr, (e.relabel r).relabel s = e.relabel (s.comp r)
  | .literal _ => rfl
  | .grouping inner => congrArg Expr.grouping inner.relabel_relabel
  | .unary op _ operand => congrArg (Expr.unary op _) operand.relabel_relabel
  | .binary left _ _ right => by
    simp only [Expr.relabel, left.relabel_relabel, right.relabel_relabel]
    rfl
  | .logical left _ right => by
    simp only [Expr.relabel, left.relabel_relabel, right.relabel_relabel]
  | .varRef _ => rfl
  | .assign _ value => congrArg (Expr.assign _) value.relabel_relabel
  | .call callee arguments _ => by
    simp only [Expr.relabel, callee.relabel_relabel, Expr.relabelEach_relabelEach arguments]
    rfl
  | .get object _ => congrArg (Expr.get · _) object.relabel_relabel
  | .set object _ value => by
    simp only [Expr.relabel, object.relabel_relabel, value.relabel_relabel]
    rfl
  | .thisRef _ _ => rfl
  | .superRef _ _ _ => rfl

theorem Expr.relabelEach_relabelEach : ∀ es : List Expr,
    Expr.relabelEach s (Expr.relabelEach r es) = Expr.relabelEach (s.comp r) es
  | [] => rfl
  | e :: es => by
    simp only [Expr.relabelEach, e.relabel_relabel, Expr.relabelEach_relabelEach es]

end

mutual

theorem Stmt.relabel_relabel : ∀ t : Stmt, (t.relabel r).relabel s = t.relabel (s.comp r)
  | .expression value => congrArg Stmt.expression (value.relabel_relabel s)
  | .print value => congrArg Stmt.print (value.relabel_relabel s)
  | .varDecl _ none => rfl
  | .varDecl _ (some value) =>
    congrArg (fun value => Stmt.varDecl _ (some value)) (value.relabel_relabel s)
  | .block body => congrArg Stmt.block (Stmt.relabelEach_relabelEach body)
  | .ifElse condition thenBranch none => by
    simp only [Stmt.relabel, condition.relabel_relabel, thenBranch.relabel_relabel]
  | .ifElse condition thenBranch (some elseBranch) => by
    simp only [Stmt.relabel, condition.relabel_relabel, thenBranch.relabel_relabel,
      elseBranch.relabel_relabel]
  | .whileLoop condition body => by
    simp only [Stmt.relabel, condition.relabel_relabel, body.relabel_relabel]
  | .funDecl function => congrArg Stmt.funDecl function.relabel_relabel
  | .returnValue _ none => rfl
  | .returnValue _ (some value) =>
    congrArg (fun value => Stmt.returnValue _ (some value)) (value.relabel_relabel s)
  | .classDecl declared => congrArg Stmt.classDecl declared.relabel_relabel

theorem Stmt.relabelEach_relabelEach : ∀ ts : List Stmt,
    Stmt.relabelEach s (Stmt.relabelEach r ts) = Stmt.relabelEach (s.comp r) ts
  | [] => rfl
  | t :: ts => by
    simp only [Stmt.relabelEach, t.relabel_relabel, Stmt.relabelEach_relabelEach ts]

theorem FunctionDecl.relabel_relabel : ∀ f : FunctionDecl,
    (f.relabel r).relabel s = f.relabel (s.comp r)
  | ⟨_, params, body⟩ => by
    simp only [FunctionDecl.relabel, List.map_map, Stmt.relabelEach_relabelEach body]
    rfl

theorem FunctionDecl.relabelEach_relabelEach : ∀ fs : List FunctionDecl,
    FunctionDecl.relabelEach s (FunctionDecl.relabelEach r fs) =
      FunctionDecl.relabelEach (s.comp r) fs
  | [] => rfl
  | f :: fs => by
    simp only [FunctionDecl.relabelEach, f.relabel_relabel,
      FunctionDecl.relabelEach_relabelEach fs]

theorem ClassDecl.relabel_relabel : ∀ c : ClassDecl,
    (c.relabel r).relabel s = c.relabel (s.comp r)
  | ⟨_, superclass, methods⟩ => by
    simp only [ClassDecl.relabel, Option.map_map, FunctionDecl.relabelEach_relabelEach methods]
    rfl

end

theorem Program.relabel_relabel (p : Program) :
    (p.relabel r).relabel s = p.relabel (s.comp r) :=
  Stmt.relabelEach_relabelEach s p

theorem Program.relabel_append (p q : Program) :
    Program.relabel r (p ++ q) = p.relabel r ++ q.relabel r := by
  simp only [Program.relabel, Stmt.relabelEach_eq_map, List.map_append]

/-! ### Nothing to relabel -/

variable {f : Nat → Nat}

/-- No id of these mentions is changed. -/
def Mention.Fixed (f : Nat → Nat) (mentions : List Mention) : Prop :=
  ∀ m ∈ mentions, f m.id = m.id

theorem Mention.fixed_append {ms ns : List Mention} :
    Fixed f (ms ++ ns) ↔ Fixed f ms ∧ Fixed f ns :=
  List.forall_mem_append

theorem Mention.fixed_cons {m : Mention} {ms : List Mention} :
    Fixed f (m :: ms) ↔ f m.id = m.id ∧ Fixed f ms :=
  List.forall_mem_cons

open Mention (Fixed fixed_append fixed_cons)

theorem Reference.relabel_eq_self {target : Reference} (h : f target.id = target.id) :
    target.relabel (.ids f) = target :=
  congrArg (Reference.mk · target.name) h

mutual

theorem Expr.relabel_eq_self : ∀ e : Expr, Fixed f e.mentions → e.relabel (.ids f) = e
  | .literal _, _ => rfl
  | .grouping inner, h => congrArg Expr.grouping (inner.relabel_eq_self h)
  | .unary op line operand, h => congrArg (Expr.unary op line) (operand.relabel_eq_self h)
  | .binary left op line right, h => by
    obtain ⟨hleft, hright⟩ := fixed_append.mp h
    rw [Expr.relabel, left.relabel_eq_self hleft, right.relabel_eq_self hright]
    rfl
  | .logical left op right, h => by
    obtain ⟨hleft, hright⟩ := fixed_append.mp h
    rw [Expr.relabel, left.relabel_eq_self hleft, right.relabel_eq_self hright]
  | .varRef target, h =>
    congrArg Expr.varRef (Reference.relabel_eq_self (fixed_cons.mp h).1)
  | .assign target value, h => by
    obtain ⟨htarget, hvalue⟩ := fixed_cons.mp h
    rw [Expr.relabel, Reference.relabel_eq_self htarget, value.relabel_eq_self hvalue]
  | .call callee arguments line, h => by
    obtain ⟨hcallee, harguments⟩ := fixed_append.mp h
    rw [Expr.relabel, callee.relabel_eq_self hcallee,
      Expr.relabelEach_eq_self arguments harguments]
    rfl
  | .get object name, h => congrArg (Expr.get · name) (object.relabel_eq_self h)
  | .set object name value, h => by
    obtain ⟨hobject, hvalue⟩ := fixed_append.mp h
    rw [Expr.relabel, object.relabel_eq_self hobject, value.relabel_eq_self hvalue]
    rfl
  | .thisRef id line, h => congrArg (Expr.thisRef · line) (fixed_cons.mp h).1
  | .superRef id line method, h =>
    congrArg (Expr.superRef · line method) (fixed_cons.mp h).1

theorem Expr.relabelEach_eq_self : ∀ es : List Expr, Fixed f (Expr.mentionsEach es) →
    Expr.relabelEach (.ids f) es = es
  | [], _ => rfl
  | e :: es, h => by
    obtain ⟨hfirst, hothers⟩ := fixed_append.mp h
    rw [Expr.relabelEach, e.relabel_eq_self hfirst, Expr.relabelEach_eq_self es hothers]

end

mutual

theorem Stmt.relabel_eq_self : ∀ s : Stmt, Fixed f s.mentions → s.relabel (.ids f) = s
  | .expression value, h => congrArg Stmt.expression (value.relabel_eq_self h)
  | .print value, h => congrArg Stmt.print (value.relabel_eq_self h)
  | .varDecl _ none, _ => rfl
  | .varDecl name (some value), h =>
    congrArg (fun value => Stmt.varDecl name (some value)) (value.relabel_eq_self h)
  | .block body, h => congrArg Stmt.block (Stmt.relabelEach_eq_self body h)
  | .ifElse condition thenBranch none, h => by
    obtain ⟨hcondition, hthen⟩ := fixed_append.mp h
    rw [Stmt.relabel, condition.relabel_eq_self hcondition, thenBranch.relabel_eq_self hthen]
  | .ifElse condition thenBranch (some elseBranch), h => by
    obtain ⟨hbefore, helse⟩ := fixed_append.mp h
    obtain ⟨hcondition, hthen⟩ := fixed_append.mp hbefore
    rw [Stmt.relabel, condition.relabel_eq_self hcondition, thenBranch.relabel_eq_self hthen,
      elseBranch.relabel_eq_self helse]
  | .whileLoop condition body, h => by
    obtain ⟨hcondition, hbody⟩ := fixed_append.mp h
    rw [Stmt.relabel, condition.relabel_eq_self hcondition, body.relabel_eq_self hbody]
  | .funDecl function, h => congrArg Stmt.funDecl (function.relabel_eq_self h)
  | .returnValue _ none, _ => rfl
  | .returnValue line (some value), h =>
    congrArg (fun value => Stmt.returnValue line (some value)) (value.relabel_eq_self h)
  | .classDecl declared, h => congrArg Stmt.classDecl (declared.relabel_eq_self h)

theorem Stmt.relabelEach_eq_self : ∀ ss : List Stmt, Fixed f (Stmt.mentionsEach ss) →
    Stmt.relabelEach (.ids f) ss = ss
  | [], _ => rfl
  | s :: ss, h => by
    obtain ⟨hfirst, hothers⟩ := fixed_append.mp h
    rw [Stmt.relabelEach, s.relabel_eq_self hfirst, Stmt.relabelEach_eq_self ss hothers]

theorem FunctionDecl.relabel_eq_self : ∀ d : FunctionDecl, Fixed f d.mentions →
    d.relabel (.ids f) = d
  | ⟨name, params, body⟩, h => by
    have hparams : params.map (Name.relabel (.ids f)) = params := List.map_id params
    rw [FunctionDecl.relabel, hparams, Stmt.relabelEach_eq_self body h]
    rfl

theorem FunctionDecl.relabelEach_eq_self : ∀ ds : List FunctionDecl,
    Fixed f (FunctionDecl.mentionsEach ds) → FunctionDecl.relabelEach (.ids f) ds = ds
  | [], _ => rfl
  | d :: ds, h => by
    obtain ⟨hfirst, hothers⟩ := fixed_append.mp h
    rw [FunctionDecl.relabelEach, d.relabel_eq_self hfirst,
      FunctionDecl.relabelEach_eq_self ds hothers]

theorem ClassDecl.relabel_eq_self : ∀ c : ClassDecl, Fixed f c.mentions → c.relabel (.ids f) = c
  | ⟨name, none, methods⟩, h => by
    rw [ClassDecl.relabel, FunctionDecl.relabelEach_eq_self methods h]
    rfl
  | ⟨name, some superclass, methods⟩, h => by
    obtain ⟨hsuperclass, hmethods⟩ := fixed_cons.mp h
    rw [ClassDecl.relabel, Option.map_some, Reference.relabel_eq_self hsuperclass,
      FunctionDecl.relabelEach_eq_self methods hmethods]
    rfl

end

/-- A program whose ids are all kept is kept. -/
theorem Program.relabel_eq_self {p : Program} (h : Fixed f (Stmt.mentionsEach p)) :
    p.relabel (.ids f) = p :=
  Stmt.relabelEach_eq_self p h

end Lox
