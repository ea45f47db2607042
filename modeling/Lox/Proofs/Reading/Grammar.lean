/-
The grammar: which tokens are a program, and which tree they stand for.

Every phrase of the language is a relation between a list of tokens and a tree:

* `Grammar.Constant`, `Sign`, `Join` — what single tokens stand for;
* `Grammar.Assignment`, `Operand`, `Unary`, `Call`, `Primary` — expressions, from
  the loosest to the tightest;
* `Grammar.Statement`, `Declaration`, `Declarations`, `Function` — the rest.

Lines are those of the tokens; the ids of references are left open.  An `else`
belongs to the nearest `if`: a statement is *open* when an `else` after it would
be its own, and the branch before an `else` must not be open.

Readers look tokens up in tables instead: `constant_iff`, `sign_iff`, `join_iff` and
`forTree_iff` say that the tables and the grammar agree.
-/
import Lox.Syntax.Declaration

namespace Lox

/-- The name that an identifier stands for. -/
def Token.name (token : Token) : Name :=
  ⟨token.lexeme, token.line⟩

namespace Grammar

/-- The constants. -/
inductive Constant : Token.Kind → Literal → Prop
  | number (value) : Constant (.number value) (.number value)
  | string (value) : Constant (.string value) (.string value)
  | true : Constant (.keyword .true) (.boolean true)
  | false : Constant (.keyword .false) (.boolean false)
  | nil : Constant (.keyword .nil) .nil

/-- The operators with one operand. -/
inductive Sign : Token.Kind → UnaryOp → Prop
  | minus : Sign (.symbol .minus) .negate
  | bang : Sign (.symbol .bang) .not

/-- Levels of operators with two operands. -/
inductive Level where
  | or | and | equality | comparison | term | factor

/-- All levels, the loosest first. -/
def levels : List Level :=
  [.or, .and, .equality, .comparison, .term, .factor]

/-- The operators of each level, and the tree that an operator on the given line makes of
two operands. -/
inductive Join (left : Expr) (line : Nat) (right : Expr) : Level → Token.Kind → Expr → Prop
  | or : Join left line right .or (.keyword .or) (.logical left .or right)
  | and : Join left line right .and (.keyword .and) (.logical left .and right)
  | equal : Join left line right .equality (.symbol .equalEqual) (.binary left .equal line right)
  | notEqual :
    Join left line right .equality (.symbol .bangEqual) (.binary left .notEqual line right)
  | less : Join left line right .comparison (.symbol .less) (.binary left .less line right)
  | lessEqual :
    Join left line right .comparison (.symbol .lessEqual) (.binary left .lessEqual line right)
  | greater : Join left line right .comparison (.symbol .greater) (.binary left .greater line right)
  | greaterEqual :
    Join left line right .comparison (.symbol .greaterEqual) (.binary left .greaterEqual line right)
  | plus : Join left line right .term (.symbol .plus) (.binary left .plus line right)
  | minus : Join left line right .term (.symbol .minus) (.binary left .minus line right)
  | times : Join left line right .factor (.symbol .star) (.binary left .times line right)
  | divide : Join left line right .factor (.symbol .slash) (.binary left .divide line right)

mutual

/-- Assignments group to the right; their target is a variable or a property. -/
inductive Assignment : List Token → Expr → Prop
  | operand {ts e} (h : Operand levels ts e) : Assignment ts e
  | toVariable {name equal : Token} {ts value id} (hname : name.kind = .identifier)
    (hequal : equal.kind = .symbol .equal) (hvalue : Assignment ts value) :
    Assignment (name :: equal :: ts) (.assign ⟨id, name.name⟩ value)
  | toProperty {os object} {dot name equal : Token} {ts value} (hobject : Call os object)
    (hdot : dot.kind = .symbol .dot) (hname : name.kind = .identifier)
    (hequal : equal.kind = .symbol .equal) (hvalue : Assignment ts value) :
    Assignment (os ++ dot :: name :: equal :: ts) (.set object name.name value)

/-- Operands joined by the operators of the given levels, the loosest first; within
a level they group to the left. -/
inductive Operand : List Level → List Token → Expr → Prop
  | unary {ts e} (h : Unary ts e) : Operand [] ts e
  | tighter {level tighter ts e} (h : Operand tighter ts e) : Operand (level :: tighter) ts e
  | join {level tighter ls left} {op : Token} {rs right e}
    (hleft : Operand (level :: tighter) ls left) (hright : Operand tighter rs right)
    (hop : Join left op.line right level op.kind e) :
    Operand (level :: tighter) (ls ++ op :: rs) e

/-- Operators with one operand group to the right. -/
inductive Unary : List Token → Expr → Prop
  | operator {token : Token} {op ts operand} (hop : Sign token.kind op)
    (h : Unary ts operand) : Unary (token :: ts) (.unary op token.line operand)
  | call {ts e} (h : Call ts e) : Unary ts e

/-- Calls and property accesses group to the left. -/
inductive Call : List Token → Expr → Prop
  | primary {ts e} (h : Primary ts e) : Call ts e
  | call {cs callee as arguments} {opening closing : Token} (hcallee : Call cs callee)
    (hopening : opening.kind = .symbol .leftParen) (harguments : Arguments as arguments)
    (hcount : arguments.length ≤ 255) (hclosing : closing.kind = .symbol .rightParen) :
    Call (cs ++ opening :: (as ++ [closing])) (.call callee arguments closing.line)
  | property {os object} {dot name : Token} (hobject : Call os object)
    (hdot : dot.kind = .symbol .dot) (hname : name.kind = .identifier) :
    Call (os ++ [dot, name]) (.get object name.name)

/-- Arguments are separated by commas. -/
inductive Arguments : List Token → List Expr → Prop
  | none : Arguments [] []
  | last {ts e} (h : Assignment ts e) : Arguments ts [e]
  | more {ts e} {comma : Token} {us e' es} (h : Assignment ts e)
    (hcomma : comma.kind = .symbol .comma) (hmore : Arguments us (e' :: es)) :
    Arguments (ts ++ comma :: us) (e :: e' :: es)

/-- Constants, names and expressions in parentheses. -/
inductive Primary : List Token → Expr → Prop
  | literal {token : Token} {value} (h : Constant token.kind value) :
    Primary [token] (.literal value)
  | name {token : Token} {id} (h : token.kind = .identifier) :
    Primary [token] (.varRef ⟨id, token.name⟩)
  | this {token : Token} {id} (h : token.kind = .keyword .this) :
    Primary [token] (.thisRef id token.line)
  | super {token dot name : Token} {id} (h : token.kind = .keyword .super)
    (hdot : dot.kind = .symbol .dot) (hname : name.kind = .identifier) :
    Primary [token, dot, name] (.superRef id token.line name.name)
  | grouping {opening closing : Token} {ts inner} (hopening : opening.kind = .symbol .leftParen)
    (h : Assignment ts inner) (hclosing : closing.kind = .symbol .rightParen) :
    Primary (opening :: (ts ++ [closing])) (.grouping inner)

end

/-- An expression and a semicolon. -/
inductive ExpressionStatement : List Token → Stmt → Prop
  | intro {ts value} {semicolon : Token} (h : Assignment ts value)
    (hsemicolon : semicolon.kind = .symbol .semicolon) :
    ExpressionStatement (ts ++ [semicolon]) (.expression value)

/-- What follows `var`. -/
inductive Variable : List Token → Stmt → Prop
  | bare {name semicolon : Token} (hname : name.kind = .identifier)
    (hsemicolon : semicolon.kind = .symbol .semicolon) :
    Variable [name, semicolon] (.varDecl name.name none)
  | withValue {name equal semicolon : Token} {ts value} (hname : name.kind = .identifier)
    (hequal : equal.kind = .symbol .equal) (h : Assignment ts value)
    (hsemicolon : semicolon.kind = .symbol .semicolon) :
    Variable (name :: equal :: (ts ++ [semicolon])) (.varDecl name.name (some value))

/-- The first clause of a `for` loop. -/
inductive Initializer : List Token → Option Stmt → Prop
  | none {semicolon : Token} (h : semicolon.kind = .symbol .semicolon) :
    Initializer [semicolon] none
  | varDecl {word : Token} {ts first} (hword : word.kind = .keyword .var)
    (h : Variable ts first) : Initializer (word :: ts) (some first)
  | expression {ts first} (h : ExpressionStatement ts first) : Initializer ts (some first)

/-- A clause that may be missing. -/
inductive Optional : List Token → Option Expr → Prop
  | none : Optional [] none
  | some {ts e} (h : Assignment ts e) : Optional ts (some e)

/-- The condition of a `for` loop, which holds if it is left out. -/
inductive Test : Option Expr → Expr → Prop
  | missing : Test none (.literal (.boolean true))
  | given {condition} : Test (some condition) condition

/-- The tree of a `for` loop: a `while` loop with the increment after its body, and the
initializer before it.  A block is made only for two statements. -/
inductive ForTree (body : Stmt) : Option Stmt → Option Expr → Option Expr → Stmt → Prop
  | bare {condition test} (h : Test condition test) :
    ForTree body none condition none (.whileLoop test body)
  | increment {condition test step} (h : Test condition test) :
    ForTree body none condition (some step) (.whileLoop test (.block [body, .expression step]))
  | initializer {first condition increment loop} (h : ForTree body none condition increment loop) :
    ForTree body (some first) condition increment (.block [first, loop])

/-- Parameters are separated by commas. -/
inductive Parameters : List Token → List Name → Prop
  | none : Parameters [] []
  | last {param : Token} (h : param.kind = .identifier) : Parameters [param] [param.name]
  | more {param comma : Token} {ts name names} (h : param.kind = .identifier)
    (hcomma : comma.kind = .symbol .comma) (hmore : Parameters ts (name :: names)) :
    Parameters (param :: comma :: ts) (param.name :: name :: names)

/-- The superclass of a class, if it has one. -/
inductive Superclass : List Token → Option Reference → Prop
  | none : Superclass [] none
  | some {less name : Token} {id} (hless : less.kind = .symbol .less)
    (hname : name.kind = .identifier) : Superclass [less, name] (some ⟨id, name.name⟩)

mutual

/-- Statements that are no declarations.  The flag says whether the statement is
open: an `else` right after it would belong to it. -/
inductive Statement : Bool → List Token → Stmt → Prop
  | expression {ts s} (h : ExpressionStatement ts s) : Statement false ts s
  | print {word semicolon : Token} {ts value} (hword : word.kind = .keyword .print)
    (h : Assignment ts value) (hsemicolon : semicolon.kind = .symbol .semicolon) :
    Statement false (word :: (ts ++ [semicolon])) (.print value)
  | returnNothing {word semicolon : Token} (hword : word.kind = .keyword .return)
    (hsemicolon : semicolon.kind = .symbol .semicolon) :
    Statement false [word, semicolon] (.returnValue word.line none)
  | returnValue {word semicolon : Token} {ts value} (hword : word.kind = .keyword .return)
    (h : Assignment ts value) (hsemicolon : semicolon.kind = .symbol .semicolon) :
    Statement false (word :: (ts ++ [semicolon])) (.returnValue word.line (some value))
  | block {opening closing : Token} {ts body} (hopening : opening.kind = .symbol .leftBrace)
    (h : Declarations ts body) (hclosing : closing.kind = .symbol .rightBrace) :
    Statement false (opening :: (ts ++ [closing])) (.block body)
  | ifThen {word opening closing : Token} {cs condition isOpen ts thenBranch}
    (hword : word.kind = .keyword .if) (hopening : opening.kind = .symbol .leftParen)
    (hcondition : Assignment cs condition) (hclosing : closing.kind = .symbol .rightParen)
    (hthen : Statement isOpen ts thenBranch) :
    Statement true (word :: opening :: (cs ++ closing :: ts)) (.ifElse condition thenBranch none)
  | ifElse {word opening closing other : Token} {cs condition ts thenBranch isOpen us elseBranch}
    (hword : word.kind = .keyword .if) (hopening : opening.kind = .symbol .leftParen)
    (hcondition : Assignment cs condition) (hclosing : closing.kind = .symbol .rightParen)
    (hthen : Statement false ts thenBranch) (hother : other.kind = .keyword .else)
    (helse : Statement isOpen us elseBranch) :
    Statement isOpen (word :: opening :: (cs ++ closing :: (ts ++ other :: us)))
      (.ifElse condition thenBranch (some elseBranch))
  | whileLoop {word opening closing : Token} {cs condition isOpen ts body}
    (hword : word.kind = .keyword .while) (hopening : opening.kind = .symbol .leftParen)
    (hcondition : Assignment cs condition) (hclosing : closing.kind = .symbol .rightParen)
    (hbody : Statement isOpen ts body) :
    Statement isOpen (word :: opening :: (cs ++ closing :: ts)) (.whileLoop condition body)
  | forLoop {word opening semicolon closing : Token}
    {is initializer cs condition ns increment isOpen ts body tree}
    (hword : word.kind = .keyword .for) (hopening : opening.kind = .symbol .leftParen)
    (hinitializer : Initializer is initializer) (hcondition : Optional cs condition)
    (hsemicolon : semicolon.kind = .symbol .semicolon) (hincrement : Optional ns increment)
    (hclosing : closing.kind = .symbol .rightParen) (hbody : Statement isOpen ts body)
    (htree : ForTree body initializer condition increment tree) :
    Statement isOpen (word :: opening :: (is ++ (cs ++ semicolon :: (ns ++ closing :: ts)))) tree

/-- Declarations and statements. -/
inductive Declaration : List Token → Stmt → Prop
  | cls {word name opening closing : Token} {ps parent ms methods}
    (hword : word.kind = .keyword .cls) (hname : name.kind = .identifier)
    (hparent : Superclass ps parent) (hopening : opening.kind = .symbol .leftBrace)
    (hmethods : Methods ms methods) (hclosing : closing.kind = .symbol .rightBrace) :
    Declaration (word :: name :: (ps ++ opening :: (ms ++ [closing])))
      (.classDecl ⟨name.name, parent, methods⟩)
  | function {word : Token} {ts f} (hword : word.kind = .keyword .fun) (h : Function ts f) :
    Declaration (word :: ts) (.funDecl f)
  | varDecl {word : Token} {ts s} (hword : word.kind = .keyword .var) (h : Variable ts s) :
    Declaration (word :: ts) s
  | statement {isOpen ts s} (h : Statement isOpen ts s) : Declaration ts s

/-- Declarations one after the other. -/
inductive Declarations : List Token → List Stmt → Prop
  | nil : Declarations [] []
  | cons {ts s us ss} (h : Declaration ts s) (hrest : Declarations us ss) :
    Declarations (ts ++ us) (s :: ss)

/-- A function or method, from its name on. -/
inductive Function : List Token → FunctionDecl → Prop
  | intro {name opening closing brace closing' : Token} {ps params ts body}
    (hname : name.kind = .identifier) (hopening : opening.kind = .symbol .leftParen)
    (hparams : Parameters ps params) (hcount : params.length ≤ 255)
    (hclosing : closing.kind = .symbol .rightParen) (hbrace : brace.kind = .symbol .leftBrace)
    (hbody : Declarations ts body) (hclosing' : closing'.kind = .symbol .rightBrace) :
    Function (name :: opening :: (ps ++ closing :: brace :: (ts ++ [closing'])))
      ⟨name.name, params, body⟩

/-- Methods one after the other. -/
inductive Methods : List Token → List FunctionDecl → Prop
  | nil : Methods [] []
  | cons {ts f us fs} (h : Function ts f) (hrest : Methods us fs) : Methods (ts ++ us) (f :: fs)

end

/-! ### The tables of readers -/

theorem maxArity_eq : maxArity = 255 := rfl

theorem constant_iff {kind : Token.Kind} {value : Literal} :
    Constant kind value ↔ Literal.ofKind? kind = some value := by
  constructor
  · rintro (_ | _ | _ | _ | _) <;> rfl
  · intro h
    unfold Literal.ofKind? at h
    split at h <;> cases h <;> constructor

theorem sign_iff {kind : Token.Kind} {op : UnaryOp} :
    Sign kind op ↔ UnaryOp.ofKind? kind = some op := by
  constructor
  · rintro (_ | _) <;> rfl
  · intro h
    unfold UnaryOp.ofKind? at h
    split at h <;> cases h <;> constructor

/-- The tier of operators that stands for a level. -/
def Level.tier : Level → Tier
  | .or => [(.keyword .or, .logical .or)]
  | .and => [(.keyword .and, .logical .and)]
  | .equality => [(.symbol .equalEqual, .binary .equal), (.symbol .bangEqual, .binary .notEqual)]
  | .comparison =>
    [(.symbol .less, .binary .less), (.symbol .lessEqual, .binary .lessEqual),
      (.symbol .greater, .binary .greater), (.symbol .greaterEqual, .binary .greaterEqual)]
  | .term => [(.symbol .plus, .binary .plus), (.symbol .minus, .binary .minus)]
  | .factor => [(.symbol .star, .binary .times), (.symbol .slash, .binary .divide)]

/-- The levels and the tiers are in the same order. -/
theorem map_tier_levels : levels.map Level.tier = Tier.all := rfl

theorem join_iff {left right e : Expr} {line : Nat} {level : Level} {kind : Token.Kind} :
    Join left line right level kind e ↔
      ∃ connective, level.tier.lookup kind = some connective ∧
        e = connective.join left line right := by
  constructor
  · rintro (_ | _ | _ | _ | _ | _ | _ | _ | _ | _ | _ | _) <;> exact ⟨_, rfl, rfl⟩
  · rintro ⟨connective, hlookup, rfl⟩
    obtain ⟨before, after, htier, -⟩ := List.lookup_eq_some_iff.mp hlookup
    have hmem : (kind, connective) ∈ level.tier := htier ▸ by simp
    cases level <;>
      simp only [Level.tier, List.mem_cons, Prod.mk.injEq, List.not_mem_nil, or_false] at hmem
    case or | and =>
      obtain ⟨rfl, rfl⟩ := hmem
      constructor
    case equality | term | factor => rcases hmem with ⟨rfl, rfl⟩ | ⟨rfl, rfl⟩ <;> constructor
    case comparison =>
      rcases hmem with ⟨rfl, rfl⟩ | ⟨rfl, rfl⟩ | ⟨rfl, rfl⟩ | ⟨rfl, rfl⟩ <;> constructor

theorem forTree_iff {initializer : Option Stmt} {condition increment : Option Expr}
    {body tree : Stmt} :
    ForTree body initializer condition increment tree ↔
      tree = Stmt.forLoop initializer condition increment body := by
  have hcondition : ∀ {test}, Test condition test →
      condition.getD (.literal (.boolean true)) = test := by
    rintro _ (_ | _) <;> rfl
  have hloop : ∀ {loop}, ForTree body none condition increment loop ↔
      loop = Stmt.forLoop none condition increment body := by
    intro loop
    constructor
    · rintro (h | h) <;> rw [← hcondition h] <;> rfl
    · rintro rfl
      have htest : Test condition (condition.getD (.literal (.boolean true))) := by
        cases condition <;> constructor
      cases increment with
      | none => exact .bare htest
      | some step => exact .increment htest
  cases initializer with
  | none => exact hloop
  | some first =>
    constructor
    · intro h
      cases h with
      | initializer h => rw [hloop.mp h]; rfl
    · rintro rfl
      exact .initializer (hloop.mpr rfl)

end Grammar

end Lox
