/-
The names of a program that is read from a source.

No identifier of a source is `this` or `super`, so what the grammar derives from its
tokens is proper:

* `Grammar.declarations_proper` — from unreserved identifiers to proper programs;
* `TokenStream.identifiers_ofSource` — the identifiers of a source are unreserved;
* `Session.check_proper` — an accepted program is proper.
-/
import Lox.Proofs.Lexical.Resolution
import Lox.Proofs.Reading.Recognition
import Lox.Session

namespace Lox

namespace Grammar

/-- No identifier is `this` or `super`. -/
def Identifiers (ts : List Token) : Prop :=
  ∀ token ∈ ts, token.kind = .identifier → ¬ isReserved token.lexeme

variable {ts us : List Token} {token : Token}

theorem identifiers_cons : Identifiers (token :: ts) ↔
    (token.kind = .identifier → ¬ isReserved token.lexeme) ∧ Identifiers ts :=
  List.forall_mem_cons

theorem identifiers_append : Identifiers (ts ++ us) ↔ Identifiers ts ∧ Identifiers us :=
  List.forall_mem_append

theorem Identifiers.sublist (h : Identifiers us) (hsub : ts.Sublist us) : Identifiers ts :=
  fun token ht => h token (hsub.subset ht)

theorem unreserved_nil : Unreserved [] :=
  nofun

theorem unreserved_single {m : Mention} (h : m.kind ≠ .write) : Unreserved [m] := by
  intro m' hm' hw
  rw [List.mem_singleton] at hm'
  subst hm'
  exact absurd hw h

mutual

theorem assignment_unreserved : ∀ {ts : List Token} {e : Expr}, Assignment ts e →
    Identifiers ts → Unreserved e.mentions
  | _, _, .operand h, hts => operand_unreserved h hts
  | _, _, .toVariable hname _ hvalue, hts => by
    obtain ⟨hfirst, hrest⟩ := identifiers_cons.mp hts
    refine List.forall_mem_cons.mpr ⟨fun _ => hfirst hname, ?_⟩
    exact assignment_unreserved hvalue (identifiers_cons.mp hrest).2
  | _, _, .toProperty hobject _ _ _ hvalue, hts => by
    obtain ⟨hos, hrest⟩ := identifiers_append.mp hts
    refine unreserved_append.mpr ⟨call_unreserved hobject hos, ?_⟩
    refine assignment_unreserved hvalue (hrest.sublist ?_)
    exact ((List.sublist_cons_self _ _).trans (List.sublist_cons_self _ _)).trans
      (List.sublist_cons_self _ _)

theorem operand_unreserved : ∀ {levels : List Level} {ts : List Token} {e : Expr},
    Operand levels ts e → Identifiers ts → Unreserved e.mentions
  | _, _, _, .unary h, hts => unary_unreserved h hts
  | _, _, _, .tighter h, hts => operand_unreserved h hts
  | _, _, _, .join hleft hright hop, hts => by
    obtain ⟨hls, hrest⟩ := identifiers_append.mp hts
    obtain ⟨connective, -, rfl⟩ := join_iff.mp hop
    rw [Reader.join_mentions]
    exact unreserved_append.mpr ⟨operand_unreserved hleft hls,
      operand_unreserved hright (identifiers_cons.mp hrest).2⟩

theorem unary_unreserved : ∀ {ts : List Token} {e : Expr}, Unary ts e → Identifiers ts →
    Unreserved e.mentions
  | _, _, .operator _ h, hts => by
    rw [Expr.mentions]
    exact unary_unreserved h (identifiers_cons.mp hts).2
  | _, _, .call h, hts => call_unreserved h hts

theorem call_unreserved : ∀ {ts : List Token} {e : Expr}, Call ts e → Identifiers ts →
    Unreserved e.mentions
  | _, _, .primary h, hts => primary_unreserved h hts
  | _, _, .call hcallee _ harguments _ _, hts => by
    obtain ⟨hcs, hrest⟩ := identifiers_append.mp hts
    exact unreserved_append.mpr ⟨call_unreserved hcallee hcs, arguments_unreserved harguments
      (identifiers_append.mp (identifiers_cons.mp hrest).2).1⟩
  | _, _, .property hobject _ _, hts => by
    rw [Expr.mentions]
    exact call_unreserved hobject (identifiers_append.mp hts).1

theorem arguments_unreserved : ∀ {ts : List Token} {es : List Expr}, Arguments ts es →
    Identifiers ts → Unreserved (Expr.mentionsEach es)
  | _, _, .none, _ => unreserved_nil
  | _, _, .last h, hts => unreserved_append.mpr ⟨assignment_unreserved h hts, unreserved_nil⟩
  | _, _, .more h _ hmore, hts => by
    obtain ⟨hfirst, hrest⟩ := identifiers_append.mp hts
    exact unreserved_append.mpr ⟨assignment_unreserved h hfirst,
      arguments_unreserved hmore (identifiers_cons.mp hrest).2⟩

theorem primary_unreserved : ∀ {ts : List Token} {e : Expr}, Primary ts e → Identifiers ts →
    Unreserved e.mentions
  | _, _, .literal _, _ => unreserved_nil
  | _, _, .name _, _ => unreserved_single nofun
  | _, _, .this _, _ => unreserved_single nofun
  | _, _, .super _ _ _, _ => unreserved_single nofun
  | _, _, .grouping _ h _, hts => by
    rw [Expr.mentions]
    exact assignment_unreserved h (identifiers_append.mp (identifiers_cons.mp hts).2).1

end

theorem expressionStatement_proper {s : Stmt} (h : ExpressionStatement ts s)
    (hts : Identifiers ts) : s.Proper := by
  obtain ⟨h, -⟩ := h
  exact assignment_unreserved h (identifiers_append.mp hts).1

theorem variable_proper {s : Stmt} (h : Variable ts s) (hts : Identifiers ts) : s.Proper := by
  cases h with
  | bare hname _ => exact (identifiers_cons.mp hts).1 hname
  | withValue hname _ h _ =>
    obtain ⟨hfirst, hrest⟩ := identifiers_cons.mp hts
    exact ⟨hfirst hname,
      assignment_unreserved h (identifiers_append.mp (identifiers_cons.mp hrest).2).1⟩

theorem parameters_unreserved : ∀ {ts : List Token} {names : List Name}, Parameters ts names →
    Identifiers ts → ∀ name ∈ names, ¬ isReserved name.text
  | _, _, .none, _ => nofun
  | _, _, .last h, hts => by
    intro name hname
    rw [List.mem_singleton] at hname
    subst hname
    exact (identifiers_cons.mp hts).1 h
  | _, _, .more h _ hmore, hts => by
    obtain ⟨hfirst, hrest⟩ := identifiers_cons.mp hts
    exact List.forall_mem_cons.mpr ⟨hfirst h,
      parameters_unreserved hmore (identifiers_cons.mp hrest).2⟩

/-- A `for` loop is no declaration, whatever its clauses are. -/
theorem forLoop_isDeclaration (initializer : Option Stmt) (condition increment : Option Expr)
    (body : Stmt) : (Stmt.forLoop initializer condition increment body).isDeclaration = false := by
  cases initializer <;> rfl

theorem statement_isDeclaration {isOpen : Bool} {ts : List Token} {s : Stmt}
    (h : Statement isOpen ts s) : s.isDeclaration = false := by
  cases h with
  | expression h =>
    cases h
    rfl
  | forLoop _ _ _ _ _ _ _ _ htree =>
    rw [forTree_iff.mp htree]
    exact forLoop_isDeclaration _ _ _ _
  | _ => rfl

/-- The pieces of a `for` loop are put together properly. -/
theorem forLoop_proper {initializer : Option Stmt} {condition increment : Option Expr}
    {body : Stmt} (hinitializer : ∀ s, initializer = some s → s.Proper)
    (hcondition : ∀ e, condition = some e → Unreserved e.mentions)
    (hincrement : ∀ e, increment = some e → Unreserved e.mentions)
    (hdecl : body.isDeclaration = false) (hbody : body.Proper) :
    (Stmt.forLoop initializer condition increment body).Proper := by
  have htest : Unreserved (condition.getD (.literal (.boolean true))).mentions := by
    cases condition with
    | none => exact unreserved_nil
    | some e => exact hcondition e rfl
  have hloop : (Stmt.forLoop none condition increment body).Proper := by
    cases increment with
    | none => exact ⟨htest, hdecl, hbody⟩
    | some step => exact ⟨htest, rfl, hbody, hincrement step rfl, trivial⟩
  cases initializer with
  | none => exact hloop
  | some first => exact ⟨hinitializer first rfl, hloop, trivial⟩

theorem initializer_proper {initializer : Option Stmt} (h : Initializer ts initializer)
    (hts : Identifiers ts) (s : Stmt) (hs : initializer = some s) : s.Proper := by
  cases h with
  | none _ => cases hs
  | varDecl _ h =>
    cases hs
    exact variable_proper h (identifiers_cons.mp hts).2
  | expression h =>
    cases hs
    exact expressionStatement_proper h hts

theorem optional_unreserved {clause : Option Expr} (h : Grammar.Optional ts clause)
    (hts : Identifiers ts) (e : Expr) (he : clause = some e) : Unreserved e.mentions := by
  cases h with
  | none => cases he
  | some h =>
    cases he
    exact assignment_unreserved h hts

mutual

theorem statement_proper : ∀ {isOpen : Bool} {ts : List Token} {s : Stmt},
    Statement isOpen ts s → Identifiers ts → s.Proper
  | _, _, _, .expression h, hts => expressionStatement_proper h hts
  | _, _, _, .print _ h _, hts =>
    assignment_unreserved h (identifiers_append.mp (identifiers_cons.mp hts).2).1
  | _, _, _, .returnNothing _ _, _ => trivial
  | _, _, _, .returnValue _ h _, hts =>
    assignment_unreserved h (identifiers_append.mp (identifiers_cons.mp hts).2).1
  | _, _, _, .block _ h _, hts =>
    declarations_proper h (identifiers_append.mp (identifiers_cons.mp hts).2).1
  | _, _, _, .ifThen _ _ hcondition _ hthen, hts => by
    obtain ⟨hcs, hrest⟩ :=
      identifiers_append.mp (identifiers_cons.mp (identifiers_cons.mp hts).2).2
    exact ⟨assignment_unreserved hcondition hcs, statement_isDeclaration hthen,
      statement_proper hthen (identifiers_cons.mp hrest).2⟩
  | _, _, _, .ifElse _ _ hcondition _ hthen _ helse, hts => by
    obtain ⟨hcs, hrest⟩ :=
      identifiers_append.mp (identifiers_cons.mp (identifiers_cons.mp hts).2).2
    obtain ⟨hthens, helses⟩ := identifiers_append.mp (identifiers_cons.mp hrest).2
    exact ⟨assignment_unreserved hcondition hcs,
      ⟨statement_isDeclaration hthen, statement_proper hthen hthens⟩,
      statement_isDeclaration helse, statement_proper helse (identifiers_cons.mp helses).2⟩
  | _, _, _, .whileLoop _ _ hcondition _ hbody, hts => by
    obtain ⟨hcs, hrest⟩ :=
      identifiers_append.mp (identifiers_cons.mp (identifiers_cons.mp hts).2).2
    exact ⟨assignment_unreserved hcondition hcs, statement_isDeclaration hbody,
      statement_proper hbody (identifiers_cons.mp hrest).2⟩
  | _, _, _, .forLoop _ _ hinitializer hcondition _ hincrement _ hbody htree, hts => by
    rw [forTree_iff.mp htree]
    obtain ⟨his, hrest⟩ :=
      identifiers_append.mp (identifiers_cons.mp (identifiers_cons.mp hts).2).2
    obtain ⟨hcs, hrest⟩ := identifiers_append.mp hrest
    obtain ⟨hns, hrest⟩ := identifiers_append.mp (identifiers_cons.mp hrest).2
    exact forLoop_proper (initializer_proper hinitializer his)
      (optional_unreserved hcondition hcs) (optional_unreserved hincrement hns)
      (statement_isDeclaration hbody) (statement_proper hbody (identifiers_cons.mp hrest).2)

theorem declaration_proper : ∀ {ts : List Token} {s : Stmt}, Declaration ts s →
    Identifiers ts → s.Proper
  | _, _, .cls _ hname _ _ hmethods _, hts => by
    obtain ⟨hfirst, hrest⟩ := identifiers_cons.mp (identifiers_cons.mp hts).2
    have hbody := (identifiers_cons.mp (identifiers_append.mp hrest).2).2
    exact ⟨hfirst hname, methods_proper hmethods (identifiers_append.mp hbody).1⟩
  | _, _, .function _ h, hts => function_proper h (identifiers_cons.mp hts).2
  | _, _, .varDecl _ h, hts => variable_proper h (identifiers_cons.mp hts).2
  | _, _, .statement h, hts => statement_proper h hts

theorem declarations_proper : ∀ {ts : List Token} {ss : List Stmt}, Declarations ts ss →
    Identifiers ts → Stmt.ProperEach ss
  | _, _, .nil, _ => trivial
  | _, _, .cons h hrest, hts =>
    ⟨declaration_proper h (identifiers_append.mp hts).1,
      declarations_proper hrest (identifiers_append.mp hts).2⟩

theorem function_proper : ∀ {ts : List Token} {f : FunctionDecl}, Function ts f →
    Identifiers ts → f.Proper
  | _, _, .intro hname _ hparams _ _ _ hbody _, hts => by
    obtain ⟨hfirst, hrest⟩ := identifiers_cons.mp hts
    obtain ⟨hps, hrest⟩ := identifiers_append.mp (identifiers_cons.mp hrest).2
    have hbraces := (identifiers_cons.mp (identifiers_cons.mp hrest).2).2
    exact ⟨hfirst hname, parameters_unreserved hparams hps,
      declarations_proper hbody (identifiers_append.mp hbraces).1⟩

theorem methods_proper : ∀ {ts : List Token} {fs : List FunctionDecl}, Methods ts fs →
    Identifiers ts → FunctionDecl.ProperEach fs
  | _, _, .nil, _ => trivial
  | _, _, .cons h hrest, hts =>
    ⟨function_proper h (identifiers_append.mp hts).1,
      methods_proper hrest (identifiers_append.mp hts).2⟩

end

end Grammar

/-! ### Identifiers of a source -/

theorem Token.not_isReserved_of_kindOfWord {text : String}
    (h : Token.kindOfWord text = .identifier) : ¬ isReserved text := by
  rintro (rfl | rfl)
  · exact absurd h (by decide)
  · exact absurd h (by decide)

/-- A word that was scanned as an identifier is no keyword. -/
theorem Token.scan_identifier {source : List Char} {front : Front Token.Kind}
    (h : Token.scan source = .token front) (hk : front.value = .identifier) :
    Token.kindOfWord (String.ofList front.text) = .identifier := by
  unfold Token.scan at h
  split at h
  · rename_i other hlongest
    cases h
    obtain ⟨recognize, hmem, hf⟩ := List.mem_filterMap.mp (Token.mem_of_longest hlongest)
    simp only [Token.recognizers, List.mem_append, List.mem_map, List.mem_cons, List.not_mem_nil,
      or_false] at hmem
    rcases hmem with ⟨s, -, rfl⟩ | rfl | rfl | rfl
    · unfold Token.recognizeSymbol at hf
      split at hf <;> cases hf
      cases hk
    · unfold Token.recognizeWord at hf
      split at hf
      · cases hf
      · split at hf <;> cases hf
        exact hk
    · unfold Token.recognizeString at hf
      split at hf
      · simp only at hf
        split at hf <;> cases hf
        cases hk
      · cases hf
    · unfold Token.recognizeNumber at hf
      simp only at hf
      split at hf
      · cases hf
      · split at hf
        · split at hf <;> cases hf <;> cases hk
        · cases hf
          cases hk
  · split at h <;> cases h
    cases hk

/-- A piece that is an identifier is no keyword. -/
def Piece.Named : Piece → Prop
  | .token kind text => kind = .identifier → ¬ isReserved (String.ofList text)
  | _ => True

theorem Piece.named_first (source : List Char) : (Piece.first source).1.Named := by
  unfold Piece.first
  split
  · trivial
  · split
    · trivial
    · split
      · rename_i front hscan
        exact fun hk => Token.not_isReserved_of_kindOfWord (Token.scan_identifier hscan hk)
      · trivial

theorem Piece.named_ofSource (source : List Char) :
    ∀ piece ∈ Piece.ofSource source, piece.Named := by
  induction source using Piece.ofSource.induct with
  | case1 => simp
  | case2 source h ih =>
    rw [Piece.ofSource_of_ne_nil h]
    exact List.forall_mem_cons.mpr ⟨Piece.named_first source, ih⟩

theorem TokenStream.identifiers_ofPieces {pieces : List Piece} (line : Nat)
    (h : ∀ piece ∈ pieces, piece.Named) :
    Grammar.Identifiers (TokenStream.ofPieces line pieces).tokens := by
  induction pieces generalizing line with
  | nil => exact Grammar.identifiers_cons.mpr ⟨nofun, nofun⟩
  | cons piece pieces ih =>
    obtain ⟨hpiece, hpieces⟩ := List.forall_mem_cons.mp h
    have hrest := ih (line + piece.text.count '\n') hpieces
    cases piece with
    | token kind text => exact Grammar.identifiers_cons.mpr ⟨hpiece, hrest⟩
    | blank text | comment text | bad error text => exact hrest

/-- No identifier of a source is `this` or `super`. -/
theorem TokenStream.identifiers_ofSource (source : String) :
    Grammar.Identifiers (TokenStream.ofSource source).tokens :=
  identifiers_ofPieces 1 (Piece.named_ofSource source.toList)

/-! ### Accepted programs -/

/-- A source is accepted as a program if there are no faults in it and it is read as that. -/
theorem Session.check_eq_ok_iff {session : Session} {source : String} {p : Program} :
    (session.check source).1 = .ok p ↔
      (TokenStream.ofSource source).diagnostics = [] ∧
        (Program.read session.nextId (TokenStream.ofSource source).tokens).diagnostics = [] ∧
        (Program.read session.nextId (TokenStream.ofSource source).tokens).program = p ∧
        p.scopingFaults = [] := by
  constructor
  · intro h
    simp only [check, parse] at h
    split at h
    · rename_i hnone
      obtain ⟨hlexical, hsyntax⟩ := List.append_eq_nil_iff.mp hnone
      obtain ⟨hfaults, rfl⟩ := Program.checked_eq_ok_iff.mp h
      exact ⟨hlexical, hsyntax, rfl, hfaults⟩
    · cases h
  · rintro ⟨hlexical, hsyntax, rfl, hfaults⟩
    simp only [check, parse, hlexical, hsyntax, List.append_nil, if_true]
    exact Program.checked_eq_ok_iff.mpr ⟨hfaults, rfl⟩

@[simp] theorem Session.nextId_check (session : Session) (source : String) :
    (session.check source).2.nextId =
      (Program.read session.nextId (TokenStream.ofSource source).tokens).nextId := rfl

/-- The mentions of an accepted program have ids of their own. -/
theorem Session.check_numbered {session : Session} {source : String} {p : Program}
    (h : (session.check source).1 = .ok p) :
    Numbered session.nextId (session.check source).2.nextId (Stmt.mentionsEach p) := by
  obtain ⟨-, -, rfl, -⟩ := check_eq_ok_iff.mp h
  rw [nextId_check]
  exact Program.read_numbered _ _

/-- An accepted program is proper. -/
theorem Session.check_proper {session : Session} {source : String} {p : Program}
    (h : (session.check source).1 = .ok p) : Stmt.ProperEach p := by
  obtain ⟨-, hread, rfl, -⟩ := check_eq_ok_iff.mp h
  refine Grammar.declarations_proper (Program.read_sound hread) ?_
  exact (TokenStream.identifiers_ofSource source).sublist (List.takeWhile_sublist _)

end Lox
