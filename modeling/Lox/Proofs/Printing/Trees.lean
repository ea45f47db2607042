/-
Trees as forms.

The text of a tree is that of a form, which has everything of the tree but ids and lines.
Forms of trees are plain: names are words, since they are identifiers, and so are numbers,
which have only digits, a point and a sign; strings have no quotes in them.

* `Stmt.form`, `Stmt.chars_form` — the form of a tree has its text;
* `Leaf.Printable` — names are identifiers, strings have no quotes, numbers are finite;
* `Stmt.plain_form` — the form of a tree with printable leaves is plain.
-/
import Lox.Proofs.Printing.Doubles
import Lox.Proofs.Printing.Forms
import Lox.Proofs.Printing.Leaves

namespace Lox

/-! ### Forms of trees -/

/-- The form of a constant. -/
def Literal.form : Literal → Form
  | .string s => .quoted s
  | value => .word value.text

mutual

/-- The form of an expression. -/
def Expr.form : Expr → Form
  | .literal value => value.form
  | .grouping inner => .node "group" [inner.form]
  | .unary op _ operand => .node op.text [operand.form]
  | .binary left op _ right => .node op.text [left.form, right.form]
  | .logical left op right => .node op.text [left.form, right.form]
  | .varRef target => .word target.name.text
  | .assign target value => .node "=" [.word target.name.text, value.form]
  | .call callee arguments _ => .node "call" (callee.form :: Expr.formEach arguments)
  | .get object name => .node "." [object.form, .word name.text]
  | .set object name value =>
    .node "=" [.node "." [object.form, .word name.text], value.form]
  | .thisRef _ _ => .word "this"
  | .superRef _ _ method => .node "super" [.word method.text]

/-- The forms of several expressions. -/
def Expr.formEach : List Expr → List Form
  | [] => []
  | e :: es => e.form :: Expr.formEach es

end

mutual

/-- The form of a statement. -/
def Stmt.form : Stmt → Form
  | .expression value => .node ";" [value.form]
  | .print value => .node "print" [value.form]
  | .varDecl name none => .node "var" [.word name.text]
  | .varDecl name (some value) => .node "var" [.word name.text, .word "=", value.form]
  | .block body => .node "block" (Stmt.formEach body)
  | .ifElse condition thenBranch none => .node "if" [condition.form, thenBranch.form]
  | .ifElse condition thenBranch (some elseBranch) =>
    .node "if" [condition.form, thenBranch.form, elseBranch.form]
  | .whileLoop condition body => .node "while" [condition.form, body.form]
  | .funDecl function => function.form
  | .returnValue _ none => .node "return" []
  | .returnValue _ (some value) => .node "return" [value.form]
  | .classDecl declared => declared.form

/-- The forms of several statements. -/
def Stmt.formEach : List Stmt → List Form
  | [] => []
  | s :: ss => s.form :: Stmt.formEach ss

/-- The form of a function. -/
def FunctionDecl.form : FunctionDecl → Form
  | ⟨name, params, body⟩ =>
    .node "fun" (.signature name.text (params.map Name.text) :: Stmt.formEach body)

/-- The forms of several functions. -/
def FunctionDecl.formEach : List FunctionDecl → List Form
  | [] => []
  | f :: fs => f.form :: FunctionDecl.formEach fs

/-- The form of a class. -/
def ClassDecl.form : ClassDecl → Form
  | ⟨name, none, methods⟩ => .node "class" (.word name.text :: FunctionDecl.formEach methods)
  | ⟨name, some superclass, methods⟩ =>
    .node "class" (.word name.text :: .word "<" :: .word superclass.name.text ::
      FunctionDecl.formEach methods)

end

theorem Literal.chars_form (value : Literal) : value.form.chars = value.text.toList := by
  cases value with
  | string s => simp [form, Form.chars, text]
  | _ => rfl

mutual

theorem Expr.chars_form : ∀ e : Expr, e.form.chars = e.text.toList
  | .literal value => value.chars_form
  | .grouping inner => by simp [form, Form.chars, Form.charsEach, text, inner.chars_form]
  | .unary op _ operand => by simp [form, Form.chars, Form.charsEach, text, operand.chars_form]
  | .binary left op _ right | .logical left op right => by
    simp [form, Form.chars, Form.charsEach, text, left.chars_form, right.chars_form]
  | .varRef target => rfl
  | .assign target value => by
    simp [form, Form.chars, Form.charsEach, text, value.chars_form]
  | .call callee arguments _ => by
    simp [form, Form.chars, Form.charsEach, text, callee.chars_form, Expr.chars_formEach arguments]
  | .get object name => by simp [form, Form.chars, Form.charsEach, text, object.chars_form]
  | .set object name value => by
    simp [form, Form.chars, Form.charsEach, text, object.chars_form, value.chars_form]
  | .thisRef _ _ => rfl
  | .superRef _ _ method => by simp [form, Form.chars, Form.charsEach, text]

theorem Expr.chars_formEach : ∀ es : List Expr,
    Form.charsEach (Expr.formEach es) = (Expr.textEach es).toList
  | [] => rfl
  | e :: es => by
    simp [formEach, Form.charsEach, textEach, e.chars_form, Expr.chars_formEach es]

end

theorem spaced_intercalate (words : List String) :
    spaced words = (String.intercalate " " words).toList := by
  cases words with
  | nil => rfl
  | cons word words =>
    induction words generalizing word with
    | nil => simp [spaced, spacedEach]
    | cons next words ih =>
      have hnext := ih next
      simp only [spaced, spacedEach, List.flatMap_cons] at hnext ⊢
      simp [String.intercalate_cons_cons, ← hnext]

mutual

theorem Stmt.chars_form : ∀ s : Stmt, s.form.chars = s.text.toList
  | .expression value => by
    simp [Stmt.form, Form.chars, Form.charsEach, Stmt.text, value.chars_form]
  | .print value => by
    simp [Stmt.form, Form.chars, Form.charsEach, Stmt.text, value.chars_form]
  | .varDecl name none => by simp [Stmt.form, Form.chars, Form.charsEach, Stmt.text]
  | .varDecl name (some value) => by
    simp [Stmt.form, Form.chars, Form.charsEach, Stmt.text, value.chars_form]
  | .block body => by
    simp [Stmt.form, Form.chars, Stmt.text, Stmt.chars_formEach body]
  | .ifElse condition thenBranch none => by
    simp [Stmt.form, Form.chars, Form.charsEach, Stmt.text, condition.chars_form,
      thenBranch.chars_form]
  | .ifElse condition thenBranch (some elseBranch) => by
    simp [Stmt.form, Form.chars, Form.charsEach, Stmt.text, condition.chars_form,
      thenBranch.chars_form, elseBranch.chars_form]
  | .whileLoop condition body => by
    simp [Stmt.form, Form.chars, Form.charsEach, Stmt.text, condition.chars_form, body.chars_form]
  | .funDecl function => function.chars_form
  | .returnValue _ none => by simp [Stmt.form, Form.chars, Form.charsEach, Stmt.text]
  | .returnValue _ (some value) => by
    simp [Stmt.form, Form.chars, Form.charsEach, Stmt.text, value.chars_form]
  | .classDecl declared => declared.chars_form

theorem Stmt.chars_formEach : ∀ ss : List Stmt,
    Form.charsEach (Stmt.formEach ss) = (Stmt.textEach ss).toList
  | [] => rfl
  | s :: ss => by
    simp [Stmt.formEach, Form.charsEach, Stmt.textEach, s.chars_form, Stmt.chars_formEach ss]

theorem FunctionDecl.chars_form : ∀ f : FunctionDecl, f.form.chars = f.text.toList
  | ⟨name, params, body⟩ => by
    simp [FunctionDecl.form, Form.chars, Form.charsEach, FunctionDecl.text, spaced_intercalate,
      Stmt.chars_formEach body]

theorem FunctionDecl.chars_formEach : ∀ fs : List FunctionDecl,
    Form.charsEach (FunctionDecl.formEach fs) = (FunctionDecl.textEach fs).toList
  | [] => rfl
  | f :: fs => by
    simp [FunctionDecl.formEach, Form.charsEach, FunctionDecl.textEach, f.chars_form,
      FunctionDecl.chars_formEach fs]

theorem ClassDecl.chars_form : ∀ c : ClassDecl, c.form.chars = c.text.toList
  | ⟨name, none, methods⟩ => by
    simp [ClassDecl.form, Form.chars, Form.charsEach, ClassDecl.text,
      FunctionDecl.chars_formEach methods]
  | ⟨name, some superclass, methods⟩ => by
    simp [ClassDecl.form, Form.chars, Form.charsEach, ClassDecl.text,
      FunctionDecl.chars_formEach methods]

end

/-! ### Printable leaves -/

/-- Names are identifiers, strings have no quotes in them, and numbers are finite. -/
def Leaf.Printable : Leaf → Prop
  | .name text => Token.Word .identifier text.toList
  | .literal (.string s) => '"' ∉ s.toList
  | .literal (.number x) => x.isFinite = true
  | .literal _ => True

/-- All names and constants are printable. -/
def Printable (leaves : List Leaf) : Prop :=
  ∀ leaf ∈ leaves, leaf.Printable

@[simp] theorem printable_nil : Printable [] := nofun

@[simp] theorem printable_cons {leaf : Leaf} {leaves : List Leaf} :
    Printable (leaf :: leaves) ↔ leaf.Printable ∧ Printable leaves :=
  List.forall_mem_cons

@[simp] theorem printable_append {leaves more : List Leaf} :
    Printable (leaves ++ more) ↔ Printable leaves ∧ Printable more :=
  List.forall_mem_append

theorem Token.Word.isWord {text : String} (h : Word .identifier text.toList) :
    Form.IsWord text := by
  have hname : ∀ c, Form.delimits c = true → startsName c = false ∧ continuesName c = false := by
    intro c hc
    rcases Form.delimits_cases hc with rfl | rfl | rfl | rfl | rfl <;> decide
  -- A delimiter can stand neither at the front of a name nor inside of it.
  generalize hchars : text.toList = chars at h
  cases h with
  | @identifier c cs first others free =>
    refine ⟨by rw [hchars]; exact List.cons_ne_nil c cs, fun d hd => ?_⟩
    rw [hchars] at hd
    refine Bool.eq_false_iff.mpr fun hdelimits => ?_
    obtain ⟨hfirst, hothers⟩ := hname d hdelimits
    rcases List.mem_cons.mp hd with rfl | hd
    · exact Bool.false_ne_true (hfirst.symm.trans first)
    · exact Bool.false_ne_true (hothers.symm.trans (others d hd))

/-- The text of a number is a word, but not a name. -/
theorem Decimal.isWord_text {x : Float} (h : x.isFinite = true) :
    Form.IsWord (text "inf" x) ∧
      (text "inf" x).toList.head?.any Token.startsName = false := by
  have hplain : ∀ c, isDigit c = true ∨ c = '.' ∨ c = '-' → Form.delimits c = false := by
    intro c hc
    refine Bool.eq_false_iff.mpr fun hdelimits => ?_
    revert hc
    rcases Form.delimits_cases hdelimits with rfl | rfl | rfl | rfl | rfl <;> decide
  obtain ⟨c, cs, htext, hfirst, hothers⟩ := text_chars h "inf"
  refine ⟨⟨by rw [htext]; exact List.cons_ne_nil c cs, fun d hd => ?_⟩, ?_⟩
  · rw [htext] at hd
    rcases List.mem_cons.mp hd with rfl | hd
    · exact hplain d (hfirst.imp_right .inr)
    · exact hplain d ((hothers d hd).imp_right .inl)
  · rw [htext]
    refine Bool.eq_false_iff.mpr fun hname => ?_
    rcases hfirst with hdigit | rfl
    · rw [Token.not_isDigit_of_startsName hname] at hdigit
      cases hdigit
    · cases hname

/-! ### Plain forms -/

theorem isWord_op (op : BinaryOp) : Form.IsWord op.text := by
  cases op <;> exact by decide

theorem isWord_unaryOp (op : UnaryOp) : Form.IsWord op.text := by
  cases op <;> exact by decide

theorem isWord_logicalOp (op : LogicalOp) : Form.IsWord op.text := by
  cases op <;> exact by decide

theorem Literal.plain_form {value : Literal} (h : (Leaf.literal value).Printable) :
    value.form.Plain := by
  cases value with
  | number x => exact (Decimal.isWord_text h).1
  | string s => exact h
  | boolean b =>
    cases b with
    | true => exact (by decide : Form.IsWord "true")
    | false => exact (by decide : Form.IsWord "false")
  | nil => exact (by decide : Form.IsWord "nil")

mutual

theorem Expr.plain_form : ∀ e : Expr, Printable e.leaves → e.form.Plain
  | .literal value, h => Literal.plain_form (printable_cons.mp h).1
  | .grouping inner, h => ⟨by decide, inner.plain_form h, trivial⟩
  | .unary op _ operand, h => ⟨isWord_unaryOp op, operand.plain_form h, trivial⟩
  | .binary left op _ right, h =>
    have ⟨hleft, hright⟩ := printable_append.mp h
    ⟨isWord_op op, left.plain_form hleft, right.plain_form hright, trivial⟩
  | .logical left op right, h =>
    have ⟨hleft, hright⟩ := printable_append.mp h
    ⟨isWord_logicalOp op, left.plain_form hleft, right.plain_form hright, trivial⟩
  | .varRef target, h => (printable_cons.mp h).1.isWord
  | .assign target value, h =>
    have ⟨hname, hvalue⟩ := printable_cons.mp h
    ⟨by decide, hname.isWord, value.plain_form hvalue, trivial⟩
  | .call callee arguments _, h =>
    have ⟨hcallee, harguments⟩ := printable_append.mp h
    ⟨by decide, callee.plain_form hcallee, Expr.plain_formEach arguments harguments⟩
  | .get object name, h =>
    have ⟨hobject, hname⟩ := printable_append.mp h
    ⟨by decide, object.plain_form hobject, (printable_cons.mp hname).1.isWord, trivial⟩
  | .set object name value, h =>
    have ⟨hobject, hrest⟩ := printable_append.mp h
    have ⟨hname, hvalue⟩ := printable_cons.mp hrest
    ⟨by decide, ⟨by decide, object.plain_form hobject, hname.isWord,
      trivial⟩, value.plain_form hvalue, trivial⟩
  | .thisRef _ _, _ => (by decide : Form.IsWord "this")
  | .superRef _ _ method, h =>
    ⟨by decide, (printable_cons.mp h).1.isWord, trivial⟩

theorem Expr.plain_formEach : ∀ es : List Expr, Printable (Expr.leavesEach es) →
    Form.PlainEach (Expr.formEach es)
  | [], _ => trivial
  | e :: es, h =>
    have ⟨he, hes⟩ := printable_append.mp h
    ⟨e.plain_form he, Expr.plain_formEach es hes⟩

end

mutual

theorem Stmt.plain_form : ∀ s : Stmt, Printable s.leaves → s.form.Plain
  | .expression value, h | .print value, h | .returnValue _ (some value), h =>
    ⟨by decide, value.plain_form h, trivial⟩
  | .varDecl name none, h => ⟨by decide, (printable_cons.mp h).1.isWord, trivial⟩
  | .varDecl name (some value), h =>
    have ⟨hname, hvalue⟩ := printable_cons.mp h
    ⟨by decide, hname.isWord, (by decide : Form.IsWord "="), value.plain_form hvalue, trivial⟩
  | .block body, h => ⟨by decide, Stmt.plain_formEach body h⟩
  | .ifElse condition thenBranch none, h =>
    have ⟨hcondition, hthen⟩ := printable_append.mp h
    ⟨by decide, condition.plain_form hcondition, thenBranch.plain_form hthen, trivial⟩
  | .ifElse condition thenBranch (some elseBranch), h =>
    have ⟨hboth, helse⟩ := printable_append.mp h
    have ⟨hcondition, hthen⟩ := printable_append.mp hboth
    ⟨by decide, condition.plain_form hcondition, thenBranch.plain_form hthen,
      elseBranch.plain_form helse, trivial⟩
  | .whileLoop condition body, h =>
    have ⟨hcondition, hbody⟩ := printable_append.mp h
    ⟨by decide, condition.plain_form hcondition, body.plain_form hbody, trivial⟩
  | .funDecl function, h => function.plain_form h
  | .returnValue _ none, _ => ⟨by decide, trivial⟩
  | .classDecl declared, h => declared.plain_form h

theorem Stmt.plain_formEach : ∀ ss : List Stmt, Printable (Stmt.leavesEach ss) →
    Form.PlainEach (Stmt.formEach ss)
  | [], _ => trivial
  | s :: ss, h =>
    have ⟨hs, hss⟩ := printable_append.mp h
    ⟨s.plain_form hs, Stmt.plain_formEach ss hss⟩

theorem FunctionDecl.plain_form : ∀ f : FunctionDecl, Printable f.leaves → f.form.Plain
  | ⟨name, params, body⟩, h => by
    obtain ⟨hname, hrest⟩ := printable_cons.mp h
    obtain ⟨hparams, hbody⟩ := printable_append.mp hrest
    refine ⟨by decide, ⟨hname.isWord, fun text htext => ?_⟩,
      Stmt.plain_formEach body hbody⟩
    obtain ⟨param, hparam, rfl⟩ := List.mem_map.mp htext
    exact (hparams _ (List.mem_map_of_mem hparam)).isWord

theorem FunctionDecl.plain_formEach : ∀ fs : List FunctionDecl,
    Printable (FunctionDecl.leavesEach fs) → Form.PlainEach (FunctionDecl.formEach fs)
  | [], _ => trivial
  | f :: fs, h =>
    have ⟨hf, hfs⟩ := printable_append.mp h
    ⟨f.plain_form hf, FunctionDecl.plain_formEach fs hfs⟩

theorem ClassDecl.plain_form : ∀ c : ClassDecl, Printable c.leaves → c.form.Plain
  | ⟨name, none, methods⟩, h =>
    have ⟨hname, hmethods⟩ := printable_cons.mp h
    ⟨by decide, hname.isWord, FunctionDecl.plain_formEach methods hmethods⟩
  | ⟨name, some superclass, methods⟩, h =>
    have ⟨hname, hrest⟩ := printable_cons.mp h
    have ⟨hsuperclass, hmethods⟩ := printable_cons.mp hrest
    ⟨by decide, hname.isWord, (by decide : Form.IsWord "<"), hsuperclass.isWord,
      FunctionDecl.plain_formEach methods hmethods⟩

end

end Lox
