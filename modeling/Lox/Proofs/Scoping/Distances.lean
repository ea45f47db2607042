/-
The distances of a program are lexical.

* `mem_scopes_within` — the scopes of a setting have the names that are declared in
  the layers around it;
* `Site.BoundAt` — where the mention at a site is bound, read off its layers;
* `Program.distances_lexical` — the table of a program that was read has this distance
  for each mention, and nothing else.
-/
import Mathlib
import Lox.Source
import Lox.Proofs.Lexical.Resolution
import Lox.Proofs.Scoping.Sites

namespace Lox

variable {layer : Layer} {layers outer : List Layer} {name : String} {d : Nat}

/-! ### Scopes and classes of a setting -/

namespace Setting

theorem declareEach_scopes (setting : Setting) (names : List String) :
    (setting.declareEach names).scopes =
      match setting.scopes with
      | [] => []
      | scope :: scopes => (names.reverse ++ scope) :: scopes := by
  unfold declareEach
  split <;> rename_i h <;> simp only [h]

theorem within_cons_scopes_of_opens (h : layer.opens = true) :
    (within (layer :: outer)).scopes = layer.names :: (within outer).scopes := by
  cases layer with
  | after _ | initializer _ | named _ | params _ => cases h
  | block | function _ _ | this _ | super => rfl

theorem within_cons_scopes_of_not_opens (h : layer.opens = false) :
    (within (layer :: outer)).scopes =
      match (within outer).scopes with
      | [] => []
      | scope :: scopes => (layer.names.reverse ++ scope) :: scopes := by
  cases layer with
  | block | function _ _ | this _ | super => cases h
  | after _ | named _ | params _ => exact declareEach_scopes _ _
  | initializer name => exact declareEach_scopes _ [name.text]

/-- There are as many scopes as layers that open one. -/
theorem within_scopes_length : ∀ layers : List Layer,
    (within layers).scopes.length = layers.countP Layer.opens
  | [] => rfl
  | layer :: outer => by
    have ih := within_scopes_length outer
    cases h : layer.opens with
    | true =>
      rw [within_cons_scopes_of_opens h, List.countP_cons_of_pos h, List.length_cons, ih]
    | false =>
      rw [within_cons_scopes_of_not_opens h, List.countP_cons_of_neg (by simp [h]), ← ih]
      cases (within outer).scopes <;> rfl

/-- A scope of a setting has the names that are declared in it. -/
theorem mem_scopes_within : ∀ (layers : List Layer) (d : Nat),
    (∃ scope, (within layers).scopes[d]? = some scope ∧ name ∈ scope) ↔
      DeclaredIn layers d name
  | [], d => by
    refine iff_of_false ?_ not_declaredIn_nil
    rintro ⟨scope, hscope, -⟩
    cases hscope
  | layer :: outer, d => by
    have ih := mem_scopes_within outer
    cases h : layer.opens with
    | true =>
      rw [within_cons_scopes_of_opens h, declaredIn_cons_of_opens h]
      cases d with
      | zero => simp
      | succ d => simpa using ih d
    | false =>
      have hlength := within_scopes_length outer
      rw [within_cons_scopes_of_not_opens h, declaredIn_cons_of_not_opens h, ← ih d, ← hlength]
      cases (within outer).scopes with
      | nil => simp
      | cons scope scopes => cases d <;> simp

/-- A name is at the distance of the innermost scope that has it. -/
theorem distance?_within : (within layers).distance? name = some d ↔ Innermost layers d name := by
  simp only [distance?, List.findIdx?_eq_some_iff_getElem, Innermost, ← mem_scopes_within,
    decide_eq_true_eq]
  constructor
  · rintro ⟨hlt, hmem, hinner⟩
    refine ⟨⟨_, List.getElem?_eq_getElem hlt, hmem⟩, ?_⟩
    rintro k hk ⟨scope, hscope, hname⟩
    obtain ⟨hlt', rfl⟩ := List.getElem?_eq_some_iff.mp hscope
    exact hinner k hk hname
  · rintro ⟨⟨scope, hscope, hname⟩, hinner⟩
    obtain ⟨hlt, rfl⟩ := List.getElem?_eq_some_iff.mp hscope
    exact ⟨hlt, hname, fun k hk hmem =>
      hinner k hk ⟨_, List.getElem?_eq_getElem (Nat.lt_trans hk hlt), hmem⟩⟩

/-- The class of a setting is that of the innermost layer which has one. -/
theorem within_enclosingClass : ∀ layers : List Layer,
    (within layers).enclosingClass =
      match layers.findSome? Layer.cls? with
      | none => .none
      | some decl => if decl.superclass.isSome then .derived else .base
  | [] => rfl
  | layer :: outer => by
    have ih := within_enclosingClass outer
    cases layer with
    | after _ | named _ | params _ => exact (declareEach_enclosingClass _ _).trans ih
    | initializer name => exact (declareEach_enclosingClass _ [name.text]).trans ih
    | block | function _ _ | super => exact ih
    | this decl => rfl

end Setting

/-! ### The mention at a site -/

/-- The mention at a site, if one stands there. -/
def Site.mention? (site : Site) : Option Mention :=
  match site.node with
  | .reads target => some ⟨.read, target.id, target.name⟩
  | .writes target => some ⟨.write, target.id, target.name⟩
  | .this id line => some ⟨.this, id, ⟨"this", line⟩⟩
  | .super id line method => some ⟨.super, id, ⟨method.text, line⟩⟩
  | .declares _ | .returns _ _ | .inherits _ _ => none

/-- The mention at a site is bound in the local scope `d`, counted from the inside out.
A `this` outside of every class is bound nowhere. -/
def Site.BoundAt (site : Site) (d : Nat) : Prop :=
  match site.node with
  | .reads target | .writes target => Innermost site.layers d target.name.text
  | .this _ _ => (∃ decl, site.layers.findSome? Layer.cls? = some decl) ∧
      Innermost site.layers d "this"
  | .super _ _ _ => Innermost site.layers d "super"
  | .declares _ | .returns _ _ | .inherits _ _ => False

namespace Setting

variable {setting : Setting} {id id' : Nat}

theorem mem_locate :
    Finding.distance id' d ∈ setting.locate id name ↔
      id = id' ∧ setting.distance? name = some d := by
  unfold locate
  cases setting.distance? name <;> simp [eq_comm]

theorem mem_read {target : Reference} :
    Finding.distance id' d ∈ setting.read target ↔
      target.id = id' ∧ setting.distance? target.name.text = some d := by
  rw [read, List.mem_append, mem_locate]
  exact or_iff_right (by split <;> simp)

theorem mem_readThis {line : Nat} :
    Finding.distance id' d ∈ setting.readThis id line ↔
      setting.enclosingClass ≠ .none ∧ id = id' ∧ setting.distance? "this" = some d := by
  unfold readThis
  cases setting.enclosingClass <;> simp [mem_locate]

theorem mem_readSuper {line : Nat} :
    Finding.distance id' d ∈ setting.readSuper id line ↔
      id = id' ∧ setting.distance? "super" = some d := by
  rw [readSuper, List.mem_append, mem_locate]
  exact or_iff_right (by split <;> simp)

/-- There is a class around a setting if one of its layers has one. -/
theorem within_enclosingClass_ne_none :
    (within layers).enclosingClass ≠ .none ↔
      ∃ decl, layers.findSome? Layer.cls? = some decl := by
  rw [within_enclosingClass]
  cases layers.findSome? Layer.cls? with
  | none => simp
  | some decl => cases h : decl.superclass.isSome <;> simp [h]

end Setting

open Setting in
/-- The distance that is found at a site is the one at which its mention is bound. -/
theorem Site.mem_findings (site : Site) {id : Nat} :
    .distance id d ∈ site.findings ↔ ∃ m, site.mention? = some m ∧ m.id = id ∧ site.BoundAt d := by
  obtain ⟨node, layers⟩ := site
  cases node with
  | declares name =>
    simpa [findings, mention?] using distance_not_mem_declaration _ name id d
  | reads target => simp [findings, mention?, BoundAt, mem_read, distance?_within]
  | writes target => simp [findings, mention?, BoundAt, mem_locate, distance?_within]
  | this id' line =>
    simp only [findings, mention?, BoundAt, mem_readThis, distance?_within,
      within_enclosingClass_ne_none, Option.some.injEq, exists_eq_left']
    exact and_left_comm
  | super id' line method => simp [findings, mention?, BoundAt, mem_readSuper, distance?_within]
  | returns line withValue =>
    simpa [findings, mention?] using distance_not_mem_leave _ line withValue id d
  | inherits superclass cls =>
    simp only [findings, mention?]
    split <;> simp

/-! ### Every mention has a site -/

mutual

theorem Expr.mentions_sites (layers : List Layer) : ∀ e : Expr,
    ((e.sites layers).filterMap Site.mention?).Perm e.mentions
  | .literal _ => .refl _
  | .grouping inner => inner.mentions_sites layers
  | .unary _ _ operand => operand.mentions_sites layers
  | .binary left _ _ right => by
    rw [Expr.sites, Expr.mentions, List.filterMap_append]
    exact (left.mentions_sites layers).append (right.mentions_sites layers)
  | .logical left _ right => by
    rw [Expr.sites, Expr.mentions, List.filterMap_append]
    exact (left.mentions_sites layers).append (right.mentions_sites layers)
  | .varRef _ => .refl _
  | .assign _ value => by
    rw [Expr.sites, Expr.mentions, List.filterMap_append]
    exact List.perm_append_comm.trans ((value.mentions_sites layers).cons _)
  | .call callee arguments _ => by
    rw [Expr.sites, Expr.mentions, List.filterMap_append]
    exact (callee.mentions_sites layers).append (Expr.mentionsEach_sites layers arguments)
  | .get object _ => object.mentions_sites layers
  | .set object _ value => by
    rw [Expr.sites, Expr.mentions, List.filterMap_append]
    exact List.perm_append_comm.trans
      ((object.mentions_sites layers).append (value.mentions_sites layers))
  | .thisRef _ _ => .refl _
  | .superRef _ _ _ => .refl _

theorem Expr.mentionsEach_sites (layers : List Layer) : ∀ es : List Expr,
    ((Expr.sitesEach layers es).filterMap Site.mention?).Perm (Expr.mentionsEach es)
  | [] => .refl _
  | e :: es => by
    rw [Expr.sitesEach, Expr.mentionsEach, List.filterMap_append]
    exact (e.mentions_sites layers).append (Expr.mentionsEach_sites layers es)

end

/-- Declared parameters are no mentions. -/
theorem Name.mentions_sitesEach (names earlier : List Name) :
    (Name.sitesEach layers earlier names).filterMap Site.mention? = [] := by
  induction names generalizing earlier with
  | nil => rfl
  | cons name names ih => exact ih (earlier ++ [name])

mutual

theorem Stmt.mentions_sites : ∀ (s : Stmt) (layers : List Layer),
    ((s.sites layers).filterMap Site.mention?).Perm s.mentions
  | .expression value, layers => value.mentions_sites layers
  | .print value, layers => value.mentions_sites layers
  | .varDecl _ none, _ => .refl _
  | .varDecl _ (some value), _ => value.mentions_sites _
  | .block body, _ => Stmt.mentionsEach_sites body _ _
  | .ifElse condition thenBranch none, layers => by
    rw [Stmt.sites, Stmt.mentions, List.filterMap_append]
    exact (condition.mentions_sites layers).append (thenBranch.mentions_sites layers)
  | .ifElse condition thenBranch (some elseBranch), layers => by
    rw [Stmt.sites, Stmt.mentions, List.filterMap_append, List.filterMap_append]
    exact ((condition.mentions_sites layers).append (thenBranch.mentions_sites layers)).append
      (elseBranch.mentions_sites layers)
  | .whileLoop condition body, layers => by
    rw [Stmt.sites, Stmt.mentions, List.filterMap_append]
    exact (condition.mentions_sites layers).append (body.mentions_sites layers)
  | .funDecl function, _ => function.mentions_sites _ _
  | .returnValue _ none, _ => .refl _
  | .returnValue _ (some value), layers => value.mentions_sites layers
  | .classDecl declared, layers => declared.mentions_sites layers

theorem Stmt.mentionsEach_sites : ∀ (ss : List Stmt) (outer : List Layer) (earlier : List Stmt),
    ((Stmt.sitesEach outer earlier ss).filterMap Site.mention?).Perm (Stmt.mentionsEach ss)
  | [], _, _ => .refl _
  | s :: ss, outer, earlier => by
    rw [Stmt.sitesEach, Stmt.mentionsEach, List.filterMap_append]
    exact (s.mentions_sites _).append (Stmt.mentionsEach_sites ss outer _)

theorem FunctionDecl.mentions_sites : ∀ (f : FunctionDecl) (role : FunctionRole)
    (layers : List Layer), ((f.sites role layers).filterMap Site.mention?).Perm f.mentions
  | ⟨_, params, body⟩, _, _ => by
    rw [FunctionDecl.sites, FunctionDecl.mentions, List.filterMap_append,
      Name.mentions_sitesEach, List.nil_append]
    exact Stmt.mentionsEach_sites body _ _

theorem FunctionDecl.mentionsEach_sites : ∀ (fs : List FunctionDecl) (layers : List Layer),
    ((FunctionDecl.sitesEach layers fs).filterMap Site.mention?).Perm
      (FunctionDecl.mentionsEach fs)
  | [], _ => .refl _
  | f :: fs, layers => by
    rw [FunctionDecl.sitesEach, FunctionDecl.mentionsEach, List.filterMap_append]
    exact (f.mentions_sites .method layers).append (FunctionDecl.mentionsEach_sites fs layers)

theorem ClassDecl.mentions_sites : ∀ (c : ClassDecl) (layers : List Layer),
    ((c.sites layers).filterMap Site.mention?).Perm c.mentions
  | ⟨_, none, methods⟩, _ => FunctionDecl.mentionsEach_sites methods _
  | ⟨_, some _, methods⟩, _ => (FunctionDecl.mentionsEach_sites methods _).cons _

end

theorem Program.mentions_sites (p : Program) :
    (p.sites.filterMap Site.mention?).Perm (Stmt.mentionsEach p) :=
  Stmt.mentionsEach_sites p [] []

/-! ### Programs -/

variable {p : Program} {n n' : Nat}

/-- Sites with mentions of one id are one site, when ids are different. -/
theorem Numbered.site_eq (h : Numbered n n' (Stmt.mentionsEach p)) {site site' : Site}
    (hsite : site ∈ p.sites) (hsite' : site' ∈ p.sites) {m m' : Mention}
    (hm : site.mention? = some m) (hm' : site'.mention? = some m') (hid : m.id = m'.id) :
    site = site' := by
  have hnodup := (p.mentions_sites.map Mention.id).nodup_iff.mpr h.nodup
  rw [List.Nodup, List.pairwise_map, List.pairwise_filterMap, List.pairwise_iff_getElem] at hnodup
  obtain ⟨i, hi, rfl⟩ := List.mem_iff_getElem.mp hsite
  obtain ⟨j, hj, rfl⟩ := List.mem_iff_getElem.mp hsite'
  obtain hlt | rfl | hlt := Nat.lt_trichotomy i j
  · exact absurd hid (hnodup i j hi hj hlt m hm m' hm')
  · rfl
  · exact absurd hid.symm (hnodup j i hj hi hlt m' hm' m hm)

/-- The distances of a program are those at which the mentions at its sites are bound. -/
theorem Program.mem_findings {id : Nat} :
    .distance id d ∈ p.findings ↔
      ∃ site ∈ p.sites, ∃ m, site.mention? = some m ∧ m.id = id ∧ site.BoundAt d := by
  simp only [p.findings_eq_sites, List.mem_flatMap, Site.mem_findings]

theorem getElem?_extend_empty (h : Numbered n n' (Stmt.mentionsEach p)) {id : Nat} :
    (Distances.extend {} p.distances)[id]? = some d ↔ .distance id d ∈ p.findings := by
  refine ⟨fun heq => ?_, extend_eq_of_mem h⟩
  by_cases hmem : ∃ scopes, Finding.distance id scopes ∈ p.findings
  · obtain ⟨scopes, hmem⟩ := hmem
    rw [extend_eq_of_mem h hmem] at heq
    exact Option.some.inj heq ▸ hmem
  · rw [extend_eq_of_not_mem fun scopes hscopes => hmem ⟨scopes, hscopes⟩] at heq
    simp at heq

theorem Stmt.findingsEach_prefix (setting : Setting) (ss later : List Stmt) :
    Stmt.findingsEach setting ss <+: Stmt.findingsEach setting (ss ++ later) := by
  induction ss generalizing setting with
  | nil => exact List.nil_prefix
  | cons s ss ih => exact (List.prefix_append_right_inj _).mpr (ih (setting.after s))

namespace Program

/-- Every mention in a program that was read, faulty or not, has one site, and the table
has the distance `d` for it exactly if the local scope `d` around that site, counted
from the inside out, is the innermost one in which its name is declared before it.  The
table has no other ids, and what is found in statements does not depend on later ones. -/
theorem distances_lexical (n : Nat) (tokens : List Token) :
    let p := (read n tokens).program
    let table := Distances.extend {} p.distances
    (p.sites.filterMap Site.mention?).Perm (Stmt.mentionsEach p) ∧
      (∀ site ∈ p.sites, ∀ m, site.mention? = some m →
        ∀ d, table[m.id]? = some d ↔ site.BoundAt d) ∧
      (∀ id ∈ table, ∃ site ∈ p.sites, ∃ m, site.mention? = some m ∧ m.id = id) ∧
      ∀ setting ss later,
        Stmt.findingsEach setting ss <+: Stmt.findingsEach setting (ss ++ later) := by
  intro p table
  have hnumbered := read_numbered n tokens
  refine ⟨p.mentions_sites, fun site hsite m hm d => ?_, fun id hid => ?_,
    Stmt.findingsEach_prefix⟩
  · rw [getElem?_extend_empty hnumbered, mem_findings]
    constructor
    · rintro ⟨site', hsite', m', hm', hid, hbound⟩
      rwa [hnumbered.site_eq hsite hsite' hm hm' hid.symm]
    · exact fun hbound => ⟨site, hsite, m, hm, rfl, hbound⟩
  · obtain ⟨d, hd⟩ := Option.isSome_iff_exists.mp (Std.TreeMap.isSome_getElem?_iff_mem.mpr hid)
    obtain ⟨site, hsite, m, hm, hid, -⟩ :=
      mem_findings.mp ((getElem?_extend_empty hnumbered).mp hd)
    exact ⟨site, hsite, m, hm, hid⟩

/-- A variable that is set in the body of a function, one scope in from the block where
it is declared. -/
theorem distances_lexical_block :
    let f : FunctionDecl :=
      ⟨⟨"f", 1⟩, [⟨"b", 1⟩], [.expression (.assign ⟨0, ⟨"a", 1⟩⟩ (.varRef ⟨1, ⟨"b", 1⟩⟩))]⟩
    let site : Site := ⟨.writes ⟨0, ⟨"a", 1⟩⟩,
      [.after [], .params f.params, .function f .function, .named f.name,
        .after [.varDecl ⟨"a", 1⟩ none], .block, .after []]⟩
    let p := (read 0 (TokenStream.ofSource "{var a; fun f(b) {a = b;}}").tokens).program
    p = [.block [.varDecl ⟨"a", 1⟩ none, .funDecl f]] ∧ site ∈ p.sites ∧
      (Distances.extend {} p.distances)[0]? = some 1 := by
  intro f site p
  have hread : p = [.block [.varDecl ⟨"a", 1⟩ none, .funDecl f]] := by
    simp only [p, f]
    cbv
  have hsite : site ∈ p.sites := by
    rw [hread]
    exact List.mem_cons_of_mem _ (List.mem_cons_of_mem _ (List.mem_cons_of_mem _
      (List.mem_cons_of_mem _ List.mem_cons_self)))
  have hbound : site.BoundAt 1 := by
    show Innermost _ 1 "a"
    decide
  obtain ⟨-, h, -⟩ :=
    distances_lexical 0 (TokenStream.ofSource "{var a; fun f(b) {a = b;}}").tokens
  exact ⟨hread, hsite, (h site hsite _ rfl 1).mpr hbound⟩

end Program

end Lox
