/-
Trees that are printed alike are the same.

The head of a form tells which node it is of, but for the two minus signs, which have
different numbers of operands, and for `=`, which is followed by a name or by a property;
a constant is told from a name by its first character, and from the other constants by its
text.

* `Expr.Kind`, `Expr.exprKind_form` — the form tells the kind of an expression;
* `Expr.form_inj`, `Stmt.form_inj` — printable trees of the same form are the same but for
  ids and lines.
-/
import Lox.Proofs.Printing.Trees
import Lox.Proofs.Relabelling.Syntax

namespace Lox

/-! ### Kinds -/

/-- The kinds of expressions. -/
inductive Expr.Kind where
  | literal | grouping | unary | binary | logical | variable | assign | call | get | set | this
  | super

/-- The kind of an expression. -/
def Expr.kind : Expr → Expr.Kind
  | .literal _ => .literal
  | .grouping _ => .grouping
  | .unary _ _ _ => .unary
  | .binary _ _ _ _ => .binary
  | .logical _ _ _ => .logical
  | .varRef _ => .variable
  | .assign _ _ => .assign
  | .call _ _ _ => .call
  | .get _ _ => .get
  | .set _ _ _ => .set
  | .thisRef _ _ => .this
  | .superRef _ _ _ => .super

/-- The kind of an expression that is one word. -/
def Expr.kindOfWord (text : String) : Expr.Kind :=
  if text = "this" then .this
  else if text ∈ ["true", "false", "nil"] then .literal
  else if text.toList.head?.any Token.startsName then .variable
  else .literal

/-- The kind of the expressions with this form. -/
def Form.exprKind : Form → Expr.Kind
  | .word text => Expr.kindOfWord text
  | .quoted _ | .signature _ _ => .literal
  | .node head items =>
    if head = "group" then .grouping
    else if head = "call" then .call
    else if head = "." then .get
    else if head = "super" then .super
    else if head = "=" then
      match items with
      | .word _ :: _ => .assign
      | _ => .set
    else if head ∈ ["and", "or"] then .logical
    else if items.length = 1 then .unary
    else .binary

theorem Expr.kindOfWord_name {text : String} (h : Token.Word .identifier text.toList) :
    kindOfWord text = .variable := by
  have hkeyword : ∀ k : Keyword, text ≠ k.text := by
    intro k htext
    exact h.ne_keyword k (by rw [htext])
  have hthis : text ≠ "this" := hkeyword .this
  have hname : text.toList.head?.any Token.startsName = true := by
    obtain ⟨c, cs, htext, hstarts⟩ := h.startsWith
    rw [htext]
    exact hstarts
  have hconstant : text ∉ ["true", "false", "nil"] := by
    simp only [List.mem_cons, List.not_mem_nil, or_false, not_or]
    exact ⟨hkeyword .true, hkeyword .false, hkeyword .nil⟩
  rw [kindOfWord, if_neg hthis, if_neg hconstant, if_pos hname]

theorem Expr.kindOfWord_number {x : Float} (h : x.isFinite = true) :
    kindOfWord (Decimal.text "inf" x) = .literal := by
  have hname := (Decimal.isWord_text h).2
  have hthis : Decimal.text "inf" x ≠ "this" := by
    intro htext
    rw [htext] at hname
    cases hname
  unfold kindOfWord
  rw [if_neg hthis, hname, if_neg Bool.false_ne_true, ite_self]

theorem Expr.exprKind_form {e : Expr} (h : Printable e.leaves) : e.form.exprKind = e.kind := by
  cases e with
  | literal value =>
    cases value with
    | number x => exact Expr.kindOfWord_number (printable_cons.mp h).1
    | string s => rfl
    | boolean b => cases b <;> rfl
    | nil => rfl
  | unary op line operand => cases op <;> rfl
  | binary left op line right => cases op <;> rfl
  | logical left op right => cases op <;> rfl
  | varRef target => exact Expr.kindOfWord_name (printable_cons.mp h).1
  | _ => rfl

/-- Printable expressions of the same form are of one kind. -/
theorem Expr.kind_eq {e e' : Expr} (h : Printable e.leaves) (h' : Printable e'.leaves)
    (heq : e.form = e'.form) : e.kind = e'.kind := by
  rw [← exprKind_form h, heq, exprKind_form h']

/-- The relabelling that forgets ids and lines. -/
def Relabelling.bare : Relabelling :=
  ⟨fun _ => 0, fun _ => 0⟩

theorem Name.relabel_bare {name name' : Name} (h : name.text = name'.text) :
    name.relabel .bare = name'.relabel .bare :=
  congrArg (Name.mk · 0) h

theorem Reference.relabel_bare {target target' : Reference}
    (h : target.name.text = target'.name.text) :
    target.relabel .bare = target'.relabel .bare :=
  congrArg (Reference.mk 0) (Name.relabel_bare h)

theorem UnaryOp.text_inj {op op' : UnaryOp} (h : op.text = op'.text) : op = op' := by
  cases op <;> cases op' <;> first | rfl | exact absurd h (by decide)

theorem LogicalOp.text_inj {op op' : LogicalOp} (h : op.text = op'.text) : op = op' := by
  cases op <;> cases op' <;> first | rfl | exact absurd h (by decide)

theorem BinaryOp.text_inj {op op' : BinaryOp} (h : op.text = op'.text) : op = op' := by
  cases op <;> cases op' <;> first | rfl | exact absurd h (by decide)

theorem Literal.form_inj {value value' : Literal} (h : (Leaf.literal value).Printable)
    (h' : (Leaf.literal value').Printable) (heq : value.form = value'.form) : value = value' := by
  -- the other constants that are words start like names
  have hname : ∀ {x : Float} (value : Literal), x.isFinite = true →
      value.text.toList.head?.any Token.startsName = true →
        Form.word (Decimal.text "inf" x) ≠ .word value.text := by
    intro x value hx hvalue heq
    rw [← Form.word.inj heq, (Decimal.isWord_text hx).2] at hvalue
    cases hvalue
  cases value with
  | number x =>
    cases value' with
    | number x' => rw [Decimal.text_inj h h' (Form.word.inj heq)]
    | string s' => cases heq
    | boolean b' => exact absurd heq (hname (.boolean b') h (by cases b' <;> rfl))
    | nil => exact absurd heq (hname .nil h rfl)
  | string s =>
    cases value' with
    | string s' => rw [Form.quoted.inj heq]
    | _ => cases heq
  | boolean b =>
    cases value' with
    | number x' => exact absurd heq.symm (hname (.boolean b) h' (by cases b <;> rfl))
    | string s' => cases heq
    | boolean b' => cases b <;> cases b' <;> first | rfl | simp [Literal.form, text] at heq
    | nil => cases b <;> simp [Literal.form, text] at heq
  | nil =>
    cases value' with
    | number x' => exact absurd heq.symm (hname .nil h' rfl)
    | string s' => cases heq
    | boolean b' => cases b' <;> simp [Literal.form, text] at heq
    | nil => rfl

mutual

/-- Printable expressions of the same form are the same but for ids and lines. -/
theorem Expr.form_inj : ∀ (e e' : Expr), Printable e.leaves → Printable e'.leaves →
    e.form = e'.form → e.relabel .bare = e'.relabel .bare
  | .literal value, e', h, h', heq => by
    -- Of all forms of expressions, only those of the same kind are left.
    have hkind := Expr.kind_eq h h' heq
    cases e' with
    | literal value' =>
      rw [Literal.form_inj (printable_cons.mp h).1 (printable_cons.mp h').1 heq]
    | _ => nomatch hkind
  | .grouping inner, e', h, h', heq => by
    have hkind := Expr.kind_eq h h' heq
    cases e' with
    | grouping inner' =>
      simp only [form, Form.node.injEq, List.cons.injEq, and_true, true_and] at heq
      rw [relabel, relabel, inner.form_inj inner' h h' heq]
    | _ => nomatch hkind
  | .unary op line operand, e', h, h', heq => by
    have hkind := Expr.kind_eq h h' heq
    cases e' with
    | unary op' line' operand' =>
      simp only [form, Form.node.injEq, List.cons.injEq, and_true] at heq
      rw [relabel, relabel, UnaryOp.text_inj heq.1, operand.form_inj operand' h h' heq.2]
      rfl
    | _ => nomatch hkind
  | .binary left op line right, e', h, h', heq => by
    have hkind := Expr.kind_eq h h' heq
    cases e' with
    | binary left' op' line' right' =>
      obtain ⟨hleft, hright⟩ := printable_append.mp h
      obtain ⟨hleft', hright'⟩ := printable_append.mp h'
      simp only [form, Form.node.injEq, List.cons.injEq, and_true] at heq
      rw [relabel, relabel, BinaryOp.text_inj heq.1, left.form_inj left' hleft hleft' heq.2.1,
        right.form_inj right' hright hright' heq.2.2]
      rfl
    | _ => nomatch hkind
  | .logical left op right, e', h, h', heq => by
    have hkind := Expr.kind_eq h h' heq
    cases e' with
    | logical left' op' right' =>
      obtain ⟨hleft, hright⟩ := printable_append.mp h
      obtain ⟨hleft', hright'⟩ := printable_append.mp h'
      simp only [form, Form.node.injEq, List.cons.injEq, and_true] at heq
      rw [relabel, relabel, LogicalOp.text_inj heq.1, left.form_inj left' hleft hleft' heq.2.1,
        right.form_inj right' hright hright' heq.2.2]
    | _ => nomatch hkind
  | .varRef target, e', h, h', heq => by
    have hkind := Expr.kind_eq h h' heq
    cases e' with
    | varRef target' =>
      exact congrArg Expr.varRef (Reference.relabel_bare (Form.word.inj heq))
    | _ => nomatch hkind
  | .assign target value, e', h, h', heq => by
    have hkind := Expr.kind_eq h h' heq
    cases e' with
    | assign target' value' =>
      simp only [form, Form.node.injEq, Form.word.injEq, List.cons.injEq, and_true, true_and] at heq
      rw [relabel, relabel, Reference.relabel_bare heq.1,
        value.form_inj value' (printable_cons.mp h).2 (printable_cons.mp h').2 heq.2]
    | _ => nomatch hkind
  | .call callee arguments line, e', h, h', heq => by
    have hkind := Expr.kind_eq h h' heq
    cases e' with
    | call callee' arguments' line' =>
      obtain ⟨hcallee, harguments⟩ := printable_append.mp h
      obtain ⟨hcallee', harguments'⟩ := printable_append.mp h'
      simp only [form, Form.node.injEq, List.cons.injEq, true_and] at heq
      rw [relabel, relabel, callee.form_inj callee' hcallee hcallee' heq.1,
        Expr.formEach_inj arguments arguments' harguments harguments' heq.2]
      rfl
    | _ => nomatch hkind
  | .get object name, e', h, h', heq => by
    have hkind := Expr.kind_eq h h' heq
    cases e' with
    | get object' name' =>
      simp only [form, Form.node.injEq, Form.word.injEq, List.cons.injEq, and_true, true_and] at heq
      rw [relabel, relabel, Name.relabel_bare heq.2,
        object.form_inj object' (printable_append.mp h).1 (printable_append.mp h').1 heq.1]
    | _ => nomatch hkind
  | .set object name value, e', h, h', heq => by
    have hkind := Expr.kind_eq h h' heq
    cases e' with
    | set object' name' value' =>
      obtain ⟨hobject, hrest⟩ := printable_append.mp h
      obtain ⟨hobject', hrest'⟩ := printable_append.mp h'
      simp only [form, Form.node.injEq, Form.word.injEq, List.cons.injEq, and_true, true_and] at heq
      rw [relabel, relabel, Name.relabel_bare heq.1.2,
        object.form_inj object' hobject hobject' heq.1.1,
        value.form_inj value' (printable_cons.mp hrest).2 (printable_cons.mp hrest').2 heq.2]
    | _ => nomatch hkind
  | .thisRef id line, e', h, h', heq => by
    have hkind := Expr.kind_eq h h' heq
    cases e' with
    | thisRef id' line' => rfl
    | _ => nomatch hkind
  | .superRef id line method, e', h, h', heq => by
    have hkind := Expr.kind_eq h h' heq
    cases e' with
    | superRef id' line' method' =>
      simp only [form, Form.node.injEq, Form.word.injEq, List.cons.injEq, and_true, true_and] at heq
      rw [relabel, relabel, Name.relabel_bare heq]
      rfl
    | _ => nomatch hkind

theorem Expr.formEach_inj : ∀ (es es' : List Expr), Printable (Expr.leavesEach es) →
    Printable (Expr.leavesEach es') → Expr.formEach es = Expr.formEach es' →
      Expr.relabelEach .bare es = Expr.relabelEach .bare es'
  | [], [], _, _, _ => rfl
  | [], _ :: _, _, _, heq | _ :: _, [], _, _, heq => nomatch heq
  | e :: es, e' :: es', h, h', heq => by
    obtain ⟨he, hes⟩ := printable_append.mp h
    obtain ⟨he', hes'⟩ := printable_append.mp h'
    obtain ⟨hfirst, hothers⟩ := List.cons.inj heq
    rw [relabelEach, relabelEach, e.form_inj e' he he' hfirst,
      Expr.formEach_inj es es' hes hes' hothers]

end

/-- The head of a form, if it has one. -/
def Form.head? : Form → Option String
  | .node head _ => some head
  | _ => none

/-- The word that the text of a statement starts with. -/
def Stmt.head : Stmt → String
  | .expression _ => ";"
  | .print _ => "print"
  | .varDecl _ _ => "var"
  | .block _ => "block"
  | .ifElse _ _ _ => "if"
  | .whileLoop _ _ => "while"
  | .funDecl _ => "fun"
  | .returnValue _ _ => "return"
  | .classDecl _ => "class"

theorem Stmt.head_form (s : Stmt) : s.form.head? = some s.head := by
  cases s with
  | varDecl name initializer => cases initializer <;> rfl
  | ifElse condition thenBranch elseBranch => cases elseBranch <;> rfl
  | returnValue line value => cases value <;> rfl
  | funDecl function =>
    obtain ⟨name, params, body⟩ := function
    rfl
  | classDecl declared =>
    obtain ⟨name, superclass, methods⟩ := declared
    cases superclass <;> rfl
  | _ => rfl

/-- Statements of the same form start with the same word. -/
theorem Stmt.head_eq {s s' : Stmt} (h : s.form = s'.form) : s.head = s'.head :=
  Option.some.inj (by rw [← s.head_form, h, s'.head_form])

theorem Name.relabelEach_bare {names names' : List Name}
    (h : names.map Name.text = names'.map Name.text) :
    names.map (Name.relabel .bare) = names'.map (Name.relabel .bare) := by
  have hbare : Name.relabel .bare = (fun text => Name.mk text 0) ∘ Name.text := rfl
  rw [hbare, ← List.map_map, h, List.map_map]

/-- The items of a class after its name tell whether it has a superclass: a word comes
then, and no function is a word. -/
theorem FunctionDecl.formEach_ne_word {fs : List FunctionDecl} {text : String}
    {forms : List Form} : FunctionDecl.formEach fs ≠ .word text :: forms := by
  cases fs with
  | nil => nofun
  | cons f fs =>
    obtain ⟨name, params, body⟩ := f
    exact fun heq => nomatch List.head_eq_of_cons_eq heq

mutual

/-- Printable statements of the same form are the same but for ids and lines. -/
theorem Stmt.form_inj : ∀ (s s' : Stmt), Printable s.leaves → Printable s'.leaves →
    s.form = s'.form → s.relabel .bare = s'.relabel .bare
  | .expression value, s', h, h', heq => by
    have hhead := Stmt.head_eq heq
    cases s' with
    | expression value' =>
      simp only [Stmt.form, Form.node.injEq, List.cons.injEq, and_true, true_and] at heq
      rw [Stmt.relabel, Stmt.relabel, value.form_inj value' h h' heq]
    | _ => simp [Stmt.head] at hhead
  | .print value, s', h, h', heq => by
    have hhead := Stmt.head_eq heq
    cases s' with
    | print value' =>
      simp only [Stmt.form, Form.node.injEq, List.cons.injEq, and_true, true_and] at heq
      rw [Stmt.relabel, Stmt.relabel, value.form_inj value' h h' heq]
    | _ => simp [Stmt.head] at hhead
  | .varDecl name initializer, s', h, h', heq => by
    have hhead := Stmt.head_eq heq
    cases s' with
    | varDecl name' initializer' =>
      cases initializer with
      | none =>
        cases initializer' with
        | none =>
          simp only [Stmt.form, Form.node.injEq, Form.word.injEq, List.cons.injEq, and_true,
            true_and] at heq
          rw [Stmt.relabel, Stmt.relabel, Name.relabel_bare heq]
        | some value' => simp [Stmt.form] at heq
      | some value =>
        cases initializer' with
        | none => simp [Stmt.form] at heq
        | some value' =>
          simp only [Stmt.form, Form.node.injEq, Form.word.injEq, List.cons.injEq, and_true,
            true_and] at heq
          rw [Stmt.relabel, Stmt.relabel, Name.relabel_bare heq.1,
            value.form_inj value' (printable_cons.mp h).2 (printable_cons.mp h').2 heq.2]
    | _ => simp [Stmt.head] at hhead
  | .block body, s', h, h', heq => by
    have hhead := Stmt.head_eq heq
    cases s' with
    | block body' =>
      simp only [Stmt.form, Form.node.injEq, true_and] at heq
      rw [Stmt.relabel, Stmt.relabel, Stmt.formEach_inj body body' h h' heq]
    | _ => simp [Stmt.head] at hhead
  | .ifElse condition thenBranch elseBranch, s', h, h', heq => by
    have hhead := Stmt.head_eq heq
    cases s' with
    | ifElse condition' thenBranch' elseBranch' =>
      cases elseBranch with
      | none =>
        cases elseBranch' with
        | none =>
          obtain ⟨hcondition, hthen⟩ := printable_append.mp h
          obtain ⟨hcondition', hthen'⟩ := printable_append.mp h'
          simp only [Stmt.form, Form.node.injEq, List.cons.injEq, and_true, true_and] at heq
          rw [Stmt.relabel, Stmt.relabel,
            condition.form_inj condition' hcondition hcondition' heq.1,
            thenBranch.form_inj thenBranch' hthen hthen' heq.2]
        | some elseBranch' => simp [Stmt.form] at heq
      | some elseBranch =>
        cases elseBranch' with
        | none => simp [Stmt.form] at heq
        | some elseBranch' =>
          obtain ⟨hboth, helse⟩ := printable_append.mp h
          obtain ⟨hcondition, hthen⟩ := printable_append.mp hboth
          obtain ⟨hboth', helse'⟩ := printable_append.mp h'
          obtain ⟨hcondition', hthen'⟩ := printable_append.mp hboth'
          simp only [Stmt.form, Form.node.injEq, List.cons.injEq, and_true, true_and] at heq
          rw [Stmt.relabel, Stmt.relabel,
            condition.form_inj condition' hcondition hcondition' heq.1,
            thenBranch.form_inj thenBranch' hthen hthen' heq.2.1,
            elseBranch.form_inj elseBranch' helse helse' heq.2.2]
    | _ => simp [Stmt.head] at hhead
  | .whileLoop condition body, s', h, h', heq => by
    have hhead := Stmt.head_eq heq
    cases s' with
    | whileLoop condition' body' =>
      obtain ⟨hcondition, hbody⟩ := printable_append.mp h
      obtain ⟨hcondition', hbody'⟩ := printable_append.mp h'
      simp only [Stmt.form, Form.node.injEq, List.cons.injEq, and_true, true_and] at heq
      rw [Stmt.relabel, Stmt.relabel, condition.form_inj condition' hcondition hcondition' heq.1,
        body.form_inj body' hbody hbody' heq.2]
    | _ => simp [Stmt.head] at hhead
  | .funDecl f, s', h, h', heq => by
    have hhead := Stmt.head_eq heq
    cases s' with
    | funDecl f' => rw [Stmt.relabel, Stmt.relabel, f.form_inj f' h h' heq]
    | _ => simp [Stmt.head] at hhead
  | .returnValue line value, s', h, h', heq => by
    have hhead := Stmt.head_eq heq
    cases s' with
    | returnValue line' value' =>
      cases value with
      | none =>
        cases value' with
        | none => rfl
        | some value' => simp [Stmt.form] at heq
      | some value =>
        cases value' with
        | none => simp [Stmt.form] at heq
        | some value' =>
          simp only [Stmt.form, Form.node.injEq, List.cons.injEq, and_true, true_and] at heq
          rw [Stmt.relabel, Stmt.relabel, value.form_inj value' h h' heq]
          rfl
    | _ => simp [Stmt.head] at hhead
  | .classDecl c, s', h, h', heq => by
    have hhead := Stmt.head_eq heq
    cases s' with
    | classDecl c' => rw [Stmt.relabel, Stmt.relabel, c.form_inj c' h h' heq]
    | _ => simp [Stmt.head] at hhead

theorem Stmt.formEach_inj : ∀ (ss ss' : List Stmt), Printable (Stmt.leavesEach ss) →
    Printable (Stmt.leavesEach ss') → Stmt.formEach ss = Stmt.formEach ss' →
      Stmt.relabelEach .bare ss = Stmt.relabelEach .bare ss'
  | [], [], _, _, _ => rfl
  | [], _ :: _, _, _, heq | _ :: _, [], _, _, heq => nomatch heq
  | s :: ss, s' :: ss', h, h', heq => by
    obtain ⟨hs, hss⟩ := printable_append.mp h
    obtain ⟨hs', hss'⟩ := printable_append.mp h'
    obtain ⟨hfirst, hothers⟩ := List.cons.inj heq
    rw [Stmt.relabelEach, Stmt.relabelEach, s.form_inj s' hs hs' hfirst,
      Stmt.formEach_inj ss ss' hss hss' hothers]

theorem FunctionDecl.form_inj : ∀ (f f' : FunctionDecl), Printable f.leaves →
    Printable f'.leaves → f.form = f'.form → f.relabel .bare = f'.relabel .bare
  | ⟨name, params, body⟩, ⟨name', params', body'⟩, h, h', heq => by
    have hbody := (printable_append.mp (printable_cons.mp h).2).2
    have hbody' := (printable_append.mp (printable_cons.mp h').2).2
    simp only [FunctionDecl.form, Form.node.injEq, Form.signature.injEq, List.cons.injEq,
      true_and] at heq
    rw [FunctionDecl.relabel, FunctionDecl.relabel, Name.relabel_bare heq.1.1,
      Name.relabelEach_bare heq.1.2, Stmt.formEach_inj body body' hbody hbody' heq.2]

theorem FunctionDecl.formEach_inj : ∀ (fs fs' : List FunctionDecl),
    Printable (FunctionDecl.leavesEach fs) → Printable (FunctionDecl.leavesEach fs') →
      FunctionDecl.formEach fs = FunctionDecl.formEach fs' →
        FunctionDecl.relabelEach .bare fs = FunctionDecl.relabelEach .bare fs'
  | [], [], _, _, _ => rfl
  | [], _ :: _, _, _, heq | _ :: _, [], _, _, heq => nomatch heq
  | f :: fs, f' :: fs', h, h', heq => by
    obtain ⟨hf, hfs⟩ := printable_append.mp h
    obtain ⟨hf', hfs'⟩ := printable_append.mp h'
    obtain ⟨hfirst, hothers⟩ := List.cons.inj heq
    rw [FunctionDecl.relabelEach, FunctionDecl.relabelEach, f.form_inj f' hf hf' hfirst,
      FunctionDecl.formEach_inj fs fs' hfs hfs' hothers]

theorem ClassDecl.form_inj : ∀ (c c' : ClassDecl), Printable c.leaves → Printable c'.leaves →
    c.form = c'.form → c.relabel .bare = c'.relabel .bare
  | ⟨name, none, methods⟩, ⟨name', none, methods'⟩, h, h', heq => by
    simp only [ClassDecl.form, Form.node.injEq, Form.word.injEq, List.cons.injEq, true_and] at heq
    rw [ClassDecl.relabel, ClassDecl.relabel, Name.relabel_bare heq.1,
      FunctionDecl.formEach_inj methods methods' (printable_cons.mp h).2 (printable_cons.mp h').2
        heq.2]
  | ⟨_, none, methods⟩, ⟨_, some _, _⟩, _, _, heq => by
    simp only [ClassDecl.form, Form.node.injEq, List.cons.injEq, true_and] at heq
    exact absurd heq.2 FunctionDecl.formEach_ne_word
  | ⟨_, some _, _⟩, ⟨_, none, methods'⟩, _, _, heq => by
    simp only [ClassDecl.form, Form.node.injEq, List.cons.injEq, true_and] at heq
    exact absurd heq.2.symm FunctionDecl.formEach_ne_word
  | ⟨name, some superclass, methods⟩, ⟨name', some superclass', methods'⟩, h, h', heq => by
    have hmethods := (printable_cons.mp (printable_cons.mp h).2).2
    have hmethods' := (printable_cons.mp (printable_cons.mp h').2).2
    simp only [ClassDecl.form, Form.node.injEq, Form.word.injEq, List.cons.injEq, true_and] at heq
    rw [ClassDecl.relabel, ClassDecl.relabel, Name.relabel_bare heq.1, Option.map_some,
      Option.map_some, Reference.relabel_bare heq.2.1,
      FunctionDecl.formEach_inj methods methods' hmethods hmethods' heq.2.2]

end

end Lox
