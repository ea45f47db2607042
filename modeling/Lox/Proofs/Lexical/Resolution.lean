/-
From findings to placement: code without scoping faults is placed in a table that
has its distances.

* `Stmt.Proper` — what the grammar promises about names and branches;
* `Resolved table bound findings mentions` — no finding is a fault, and the table has
  the distances of the findings and no others for these mentions;
* `Setting.Sound` — where `this` and `super` may be used they are bound;
* `Stmt.placed` — a proper statement whose findings are resolved is placed.
-/
import Mathlib.Data.List.Perm.Subperm
import Lox.Proofs.Lexical.Placement
import Lox.Proofs.Reading.Numbering

namespace Lox

/-! ### What the grammar promises -/

/-- No target of an assignment is `this` or `super`. -/
def Unreserved (mentions : List Mention) : Prop :=
  ∀ m ∈ mentions, m.kind = .write → ¬ isReserved m.name.text

theorem unreserved_append {ms ns : List Mention} :
    Unreserved (ms ++ ns) ↔ Unreserved ms ∧ Unreserved ns :=
  List.forall_mem_append

mutual

/-- Declared names are not reserved, branches declare nothing. -/
def Stmt.Proper : Stmt → Prop
  | .expression value => Unreserved value.mentions
  | .print value => Unreserved value.mentions
  | .varDecl name none => ¬ isReserved name.text
  | .varDecl name (some value) => ¬ isReserved name.text ∧ Unreserved value.mentions
  | .block body => Stmt.ProperEach body
  | .ifElse condition thenBranch none =>
    Unreserved condition.mentions ∧ thenBranch.isDeclaration = false ∧ thenBranch.Proper
  | .ifElse condition thenBranch (some elseBranch) =>
    Unreserved condition.mentions ∧ (thenBranch.isDeclaration = false ∧ thenBranch.Proper) ∧
      elseBranch.isDeclaration = false ∧ elseBranch.Proper
  | .whileLoop condition body =>
    Unreserved condition.mentions ∧ body.isDeclaration = false ∧ body.Proper
  | .funDecl function => function.Proper
  | .returnValue _ none => True
  | .returnValue _ (some value) => Unreserved value.mentions
  | .classDecl declared => declared.Proper

/-- All statements are proper. -/
def Stmt.ProperEach : List Stmt → Prop
  | [] => True
  | s :: ss => s.Proper ∧ Stmt.ProperEach ss

/-- Neither the function nor a parameter has a reserved name, and the body is proper. -/
def FunctionDecl.Proper : FunctionDecl → Prop
  | ⟨name, params, body⟩ =>
    ¬ isReserved name.text ∧ (∀ param ∈ params, ¬ isReserved param.text) ∧ Stmt.ProperEach body

/-- All functions are proper. -/
def FunctionDecl.ProperEach : List FunctionDecl → Prop
  | [] => True
  | f :: fs => f.Proper ∧ FunctionDecl.ProperEach fs

/-- The class has no reserved name, and its methods are proper. -/
def ClassDecl.Proper : ClassDecl → Prop
  | ⟨name, _, methods⟩ => ¬ isReserved name.text ∧ FunctionDecl.ProperEach methods

end

/-! ### Findings and mentions -/

/-- The findings are about these mentions, one at most about each. -/
def Covers (findings : List Finding) (mentions : List Mention) : Prop :=
  ((findings.filterMap Finding.distance?).map Prod.fst).Subperm (mentions.map Mention.id)

theorem covers_nil (mentions : List Mention) : Covers [] mentions :=
  List.nil_subperm

theorem Covers.mem {fs : List Finding} {ms : List Mention} (h : Covers fs ms) {id scopes : Nat}
    (hmem : .distance id scopes ∈ fs) : ∃ m ∈ ms, m.id = id := by
  refine List.mem_map.mp (h.subset (List.mem_map.mpr ⟨(id, scopes), ?_, rfl⟩))
  exact List.mem_filterMap.mpr ⟨.distance id scopes, hmem, rfl⟩

theorem Covers.append {fs gs : List Finding} {ms ns : List Mention} (h : Covers fs ms)
    (h' : Covers gs ns) : Covers (fs ++ gs) (ms ++ ns) := by
  rw [Covers, List.filterMap_append, List.map_append, List.map_append]
  exact List.Subperm.append h h'

theorem Covers.append_swap {fs gs : List Finding} {ms ns : List Mention} (h : Covers fs ns)
    (h' : Covers gs ms) : Covers (fs ++ gs) (ms ++ ns) :=
  List.Subperm.trans (h.append h') (List.perm_append_comm.map _).subperm

/-- Faults are about no mention. -/
theorem Covers.faults {fs gs : List Finding} {ms : List Mention} (h : Covers gs ms)
    (hfaults : ∀ id scopes, Finding.distance id scopes ∉ fs) : Covers (fs ++ gs) ms := by
  have hnil : fs.filterMap Finding.distance? = [] := by
    rw [List.filterMap_eq_nil_iff]
    intro f hf
    cases f with
    | distance id scopes => exact absurd hf (hfaults id scopes)
    | fault error name => rfl
  rwa [Covers, List.filterMap_append, hnil, List.nil_append]

variable {setting : Setting}

theorem Setting.covers_locate (setting : Setting) (id : Nat) (name : String) (m : Mention)
    (hm : m.id = id) : Covers (setting.locate id name) [m] := by
  unfold Setting.locate
  split
  · subst hm
    exact List.Subperm.refl _
  · exact covers_nil _

theorem Setting.covers_read (setting : Setting) (target : Reference) (m : Mention)
    (hm : m.id = target.id) : Covers (setting.read target) [m] := by
  refine (setting.covers_locate target.id _ m hm).faults fun id scopes => ?_
  split <;> simp

theorem Setting.distance_not_mem_declaration (setting : Setting) (name : Name) (id scopes : Nat) :
    Finding.distance id scopes ∉ setting.declaration name := by
  unfold Setting.declaration
  split <;> simp

mutual

theorem Expr.covers : ∀ (e : Expr) (setting : Setting), Covers (e.findings setting) e.mentions
  | .literal _, _ => covers_nil _
  | .grouping inner, setting => inner.covers setting
  | .unary _ _ operand, setting => operand.covers setting
  | .binary left _ _ right, setting => (left.covers setting).append (right.covers setting)
  | .logical left _ right, setting => (left.covers setting).append (right.covers setting)
  | .varRef target, setting => setting.covers_read target _ rfl
  | .assign target value, setting =>
    (value.covers setting).append_swap (setting.covers_locate target.id _ _ rfl)
  | .call callee arguments _, setting =>
    (callee.covers setting).append (Expr.coversEach arguments setting)
  | .get object _, setting => object.covers setting
  | .set object _ value, setting => (value.covers setting).append_swap (object.covers setting)
  | .thisRef id line, setting => by
    show Covers (setting.readThis id line) _
    unfold Setting.readThis
    split
    · show Covers ([_] ++ []) _
      exact (covers_nil _).faults (by simp)
    · exact setting.covers_locate id _ _ rfl
  | .superRef id line _, setting => by
    refine (setting.covers_locate id "super" _ rfl).faults fun id' scopes => ?_
    split <;> simp

theorem Expr.coversEach : ∀ (es : List Expr) (setting : Setting),
    Covers (Expr.findingsEach setting es) (Expr.mentionsEach es)
  | [], _ => covers_nil _
  | e :: es, setting => (e.covers setting).append (Expr.coversEach es setting)

end

theorem Setting.distance_not_mem_leave (setting : Setting) (line : Nat) (withValue : Bool)
    (id scopes : Nat) : Finding.distance id scopes ∉ setting.leave line withValue := by
  unfold Setting.leave
  split
  · simp
  · split <;> simp
  · simp

theorem Setting.distance_not_mem_parameters (params : List Name) (setting : Setting)
    (id scopes : Nat) : Finding.distance id scopes ∉ (setting.parameters params).1 := by
  induction params generalizing setting with
  | nil => exact List.not_mem_nil
  | cons param params ih =>
    rw [Setting.parameters, List.mem_append, not_or]
    exact ⟨setting.distance_not_mem_declaration param id scopes, ih (setting.declare param)⟩

mutual

theorem Stmt.covers : ∀ (s : Stmt) (setting : Setting), Covers (s.findings setting) s.mentions
  | .expression value, setting => value.covers setting
  | .print value, setting => value.covers setting
  | .varDecl name none, setting => by
    have h := (covers_nil []).faults (setting.distance_not_mem_declaration name)
    rwa [List.append_nil] at h
  | .varDecl name (some value), setting =>
    (value.covers _).faults (setting.distance_not_mem_declaration name)
  | .block body, _ => Stmt.coversEach body _
  | .ifElse condition thenBranch none, setting =>
    (condition.covers setting).append (thenBranch.covers setting)
  | .ifElse condition thenBranch (some elseBranch), setting =>
    ((condition.covers setting).append (thenBranch.covers setting)).append
      (elseBranch.covers setting)
  | .whileLoop condition body, setting => (condition.covers setting).append (body.covers setting)
  | .funDecl function, setting =>
    (function.covers _).faults (setting.distance_not_mem_declaration function.name)
  | .returnValue line none, setting => by
    have h := (covers_nil []).faults (setting.distance_not_mem_leave line false)
    rwa [List.append_nil] at h
  | .returnValue line (some value), setting =>
    (value.covers setting).faults (setting.distance_not_mem_leave line true)
  | .classDecl declared, setting => declared.covers setting

theorem Stmt.coversEach : ∀ (ss : List Stmt) (setting : Setting),
    Covers (Stmt.findingsEach setting ss) (Stmt.mentionsEach ss)
  | [], _ => covers_nil _
  | s :: ss, setting => (s.covers setting).append (Stmt.coversEach ss _)

theorem FunctionDecl.covers : ∀ (f : FunctionDecl) (setting : Setting),
    Covers (f.findings setting) f.mentions
  | ⟨_, params, body⟩, setting =>
    (Stmt.coversEach body _).faults ((setting.push []).distance_not_mem_parameters params)

theorem FunctionDecl.coversEach : ∀ (fs : List FunctionDecl) (setting : Setting),
    Covers (FunctionDecl.findingsEach setting fs) (FunctionDecl.mentionsEach fs)
  | [], _ => covers_nil _
  | f :: fs, setting => (f.covers _).append (FunctionDecl.coversEach fs setting)

theorem ClassDecl.covers : ∀ (c : ClassDecl) (setting : Setting),
    Covers (c.findings setting) c.mentions
  | ⟨name, none, methods⟩, setting =>
    (FunctionDecl.coversEach methods _).faults (setting.distance_not_mem_declaration name)
  | ⟨name, some superclass, methods⟩, setting => by
    have hread := ((setting.declare name).covers_read superclass
      ⟨.read, superclass.id, superclass.name⟩ rfl).append (FunctionDecl.coversEach methods
      { ((setting.declare name).push ["super"]).push ["this"] with enclosingClass := .derived })
    rw [ClassDecl.findings, ClassDecl.mentions, List.append_assoc]
    refine Covers.faults hread fun id scopes => ?_
    rw [List.mem_append, not_or]
    refine ⟨setting.distance_not_mem_declaration name id scopes, ?_⟩
    split <;> simp

end

/-! ### Resolved findings -/

/-- The table has the distances of the findings and no others for these mentions,
whose ids are different and below the bound; and no finding is a fault. -/
structure Resolved (table : Distances) (bound : Nat) (findings : List Finding)
    (mentions : List Mention) : Prop where
  distance : ∀ f ∈ findings, ∃ id scopes, f = .distance id scopes ∧ table[id]? = some scopes
  global : ∀ m ∈ mentions, (∀ scopes, .distance m.id scopes ∉ findings) → table[m.id]? = none
  nodup : (mentions.map Mention.id).Nodup
  below : ∀ m ∈ mentions, m.id < bound

namespace Resolved

variable {table : Distances} {bound : Nat} {fs gs : List Finding} {ms ns : List Mention}

/-- The first part is resolved when the other is about other mentions. -/
theorem left (h : Resolved table bound (fs ++ gs) (ms ++ ns)) (hcovers : Covers gs ns) :
    Resolved table bound fs ms := by
  have hdisjoint : ∀ m ∈ ms, ∀ n ∈ ns, m.id ≠ n.id := by
    intro m hm n hn
    have hnodup := h.nodup
    rw [List.map_append, List.nodup_append] at hnodup
    exact hnodup.2.2 m.id (List.mem_map_of_mem hm) n.id (List.mem_map_of_mem hn)
  refine ⟨fun f hf => h.distance f (List.mem_append_left _ hf), fun m hm hnone => ?_, ?_,
    fun m hm => h.below m (List.mem_append_left _ hm)⟩
  · refine h.global m (List.mem_append_left _ hm) fun scopes hmem => ?_
    rcases List.mem_append.mp hmem with hmem | hmem
    · exact hnone scopes hmem
    · obtain ⟨n, hn, hid⟩ := hcovers.mem hmem
      exact hdisjoint m hm n hn hid.symm
  · have hnodup := h.nodup
    rw [List.map_append, List.nodup_append] at hnodup
    exact hnodup.1

/-- The order of findings and mentions does not matter. -/
theorem congr {fs' : List Finding} {ms' : List Mention} (h : Resolved table bound fs ms)
    (hfs : ∀ f, f ∈ fs' ↔ f ∈ fs) (hms : ms'.Perm ms) : Resolved table bound fs' ms' := by
  refine ⟨fun f hf => h.distance f ((hfs f).mp hf), fun m hm hnone => ?_,
    (hms.map Mention.id).nodup_iff.mpr h.nodup, fun m hm => h.below m (hms.mem_iff.mp hm)⟩
  exact h.global m (hms.mem_iff.mp hm) fun scopes hmem => hnone scopes ((hfs _).mpr hmem)

theorem right (h : Resolved table bound (fs ++ gs) (ms ++ ns)) (hcovers : Covers fs ms) :
    Resolved table bound gs ns := by
  refine left (h.congr (fun f => ?_) List.perm_append_comm) hcovers
  rw [List.mem_append, List.mem_append, or_comm]

/-- Two parts whose mentions come the other way round. -/
theorem swap (h : Resolved table bound (fs ++ gs) (ms ++ ns)) :
    Resolved table bound (fs ++ gs) (ns ++ ms) :=
  h.congr (fun _ => Iff.rfl) List.perm_append_comm

/-- There are no faults. -/
theorem no_fault (h : Resolved table bound fs ms) (error : ScopingError) (name : Name) :
    Finding.fault error name ∉ fs := by
  intro hmem
  obtain ⟨id, scopes, heq, -⟩ := h.distance _ hmem
  cases heq

/-- Findings without distances can be left out. -/
theorem of_faults (h : Resolved table bound (fs ++ gs) ms)
    (hfs : ∀ id scopes, Finding.distance id scopes ∉ fs) : Resolved table bound gs ms := by
  refine ⟨fun f hf => h.distance f (List.mem_append_right _ hf), fun m hm hnone => ?_, h.nodup,
    h.below⟩
  refine h.global m hm fun scopes hmem => ?_
  rcases List.mem_append.mp hmem with hmem | hmem
  · exact hfs _ _ hmem
  · exact hnone scopes hmem

theorem locates {id : Nat} {name : String} {m : Mention}
    (h : Resolved table bound (setting.locate id name) [m]) (hm : m.id = id) :
    setting.Locates table bound id name := by
  refine ⟨hm ▸ h.below m List.mem_cons_self, ?_⟩
  unfold Setting.locate at h
  cases hd : setting.distance? name with
  | some scopes =>
    rw [hd] at h
    obtain ⟨id', scopes', heq, htable⟩ := h.distance _ List.mem_cons_self
    cases heq
    exact htable
  | none =>
    rw [hd] at h
    rw [← hm]
    exact h.global m List.mem_cons_self fun scopes => List.not_mem_nil

end Resolved

/-! ### Sound settings -/

namespace Setting

/-- Where `this` and `super` may be used they are bound, `this` one scope further in. -/
structure Sound (setting : Setting) : Prop where
  this : setting.enclosingClass ≠ .none → ∃ scopes, setting.distance? "this" = some scopes
  super : setting.enclosingClass = .derived → ∃ scopes,
    setting.distance? "super" = some (scopes + 1) ∧ setting.distance? "this" = some scopes

theorem sound_topLevel : topLevel.Sound :=
  ⟨fun h => absurd rfl h, nofun⟩

theorem Sound.push (h : setting.Sound) {names : List String}
    (hnames : ∀ name ∈ names, ¬ isReserved name) : (setting.push names).Sound := by
  have hthis : "this" ∉ names := fun hmem => hnames _ hmem (.inl rfl)
  have hsuper : "super" ∉ names := fun hmem => hnames _ hmem (.inr rfl)
  refine ⟨fun hclass => ?_, fun hclass => ?_⟩
  · obtain ⟨scopes, hd⟩ := h.this hclass
    exact ⟨scopes + 1, by rw [distance?_push, if_neg hthis, hd]; rfl⟩
  · obtain ⟨scopes, hd, hd'⟩ := h.super hclass
    refine ⟨scopes + 1, ?_, ?_⟩
    · rw [distance?_push, if_neg hsuper, hd]
      rfl
    · rw [distance?_push, if_neg hthis, hd']
      rfl

theorem Sound.declare (h : setting.Sound) {name : Name} (hname : ¬ isReserved name.text) :
    (setting.declare name).Sound := by
  have hthis : "this" ≠ name.text := fun heq => hname (.inl heq.symm)
  have hsuper : "super" ≠ name.text := fun heq => hname (.inr heq.symm)
  refine ⟨fun hclass => ?_, fun hclass => ?_⟩
  · rw [declare_enclosingClass] at hclass
    rw [distance?_declare setting hthis]
    exact h.this hclass
  · rw [declare_enclosingClass] at hclass
    rw [distance?_declare setting hthis, distance?_declare setting hsuper]
    exact h.super hclass

theorem Sound.initializing (h : setting.Sound) {name : Name} (hname : ¬ isReserved name.text) :
    (setting.initializing name).Sound :=
  ⟨(h.declare hname).this, (h.declare hname).super⟩

theorem Sound.withEnclosing (h : setting.Sound) (enclosing : Enclosing) :
    { setting with enclosing := enclosing }.Sound :=
  ⟨h.this, h.super⟩

theorem sound_insideClass (setting : Setting) (decl : ClassDecl) :
    (setting.insideClass decl).Sound := by
  unfold insideClass
  split
  · exact ⟨fun _ => ⟨0, rfl⟩, nofun⟩
  · exact ⟨fun _ => ⟨0, rfl⟩, fun _ => ⟨0, rfl, rfl⟩⟩

theorem Sound.after (h : setting.Sound) {s : Stmt} (hs : s.Proper) : (setting.after s).Sound := by
  cases s with
  | varDecl name initializer =>
    cases initializer with
    | none => exact h.declare hs
    | some value => exact h.declare hs.1
  | funDecl function =>
    obtain ⟨name, params, body⟩ := function
    exact h.declare hs.1
  | classDecl declared =>
    obtain ⟨name, superclass, methods⟩ := declared
    exact h.declare hs.1
  | _ => exact h

/-! ### Parameters -/

theorem isDeclared_push (setting : Setting) (names : List String) (name : Name) :
    (setting.push names).isDeclared name = decide (name.text ∈ names) := rfl

theorem parameters_snd (setting : Setting) (params : List Name) (names : List String) :
    ((setting.push names).parameters params).2 =
      setting.push ((params.map Name.text).reverse ++ names) := by
  induction params generalizing names with
  | nil => rfl
  | cons param params ih =>
    show ((setting.push (param.text :: names)).parameters params).2 = _
    rw [ih, List.map_cons, List.reverse_cons, List.append_assoc, List.singleton_append]

theorem nodup_of_parameters {params : List Name} {names : List String}
    (h : ∀ error name, Finding.fault error name ∉ ((setting.push names).parameters params).1) :
    (params.map Name.text).Nodup ∧ ∀ param ∈ params, param.text ∉ names := by
  induction params generalizing names with
  | nil => exact ⟨List.nodup_nil, nofun⟩
  | cons param params ih =>
    have hfirst : param.text ∉ names := by
      intro hmem
      refine h .alreadyDeclared param (List.mem_append_left _ ?_)
      rw [declaration, isDeclared_push, decide_eq_true hmem]
      exact List.mem_singleton.mpr rfl
    obtain ⟨hnodup, hnot⟩ := ih fun error name hmem =>
      h error name (List.mem_append_right _ hmem)
    refine ⟨List.nodup_cons.mpr ⟨fun hmem => ?_, hnodup⟩, List.forall_mem_cons.mpr ⟨hfirst, ?_⟩⟩
    · obtain ⟨other, hother, heq⟩ := List.mem_map.mp hmem
      exact hnot other hother (heq ▸ List.mem_cons_self)
    · exact fun other hother hmem => hnot other hother (List.mem_cons_of_mem _ hmem)

end Setting

/-! ### Placement -/

variable {table : Distances} {bound : Nat}

theorem Resolved.admits {fs : List Finding} {ms : List Mention} {name : Name}
    (h : Resolved table bound (setting.declaration name ++ fs) ms)
    (hname : ¬ isReserved name.text) : setting.Admits name := by
  refine ⟨?_, hname⟩
  cases hd : setting.isDeclared name with
  | false => rfl
  | true =>
    refine absurd (List.mem_append_left _ ?_) (h.no_fault .alreadyDeclared name)
    rw [Setting.declaration, if_pos hd]
    exact List.mem_singleton.mpr rfl

mutual

theorem Expr.placed : ∀ (e : Expr) {setting : Setting}, setting.Sound → Unreserved e.mentions →
    Resolved table bound (e.findings setting) e.mentions → e.Placed table bound setting
  | .literal _, _, _, _, _ => trivial
  | .grouping inner, _, hsound, hproper, h => inner.placed hsound hproper h
  | .unary _ _ operand, _, hsound, hproper, h => operand.placed hsound hproper h
  | .binary left _ _ right, setting, hsound, hproper, h =>
    have hproper := unreserved_append.mp hproper
    ⟨left.placed hsound hproper.1 (h.left (right.covers setting)),
      right.placed hsound hproper.2 (h.right (left.covers setting))⟩
  | .logical left _ right, setting, hsound, hproper, h =>
    have hproper := unreserved_append.mp hproper
    ⟨left.placed hsound hproper.1 (h.left (right.covers setting)),
      right.placed hsound hproper.2 (h.right (left.covers setting))⟩
  | .varRef target, setting, _, _, h => by
    refine ⟨fun hpending => ?_, ?_⟩
    · refine h.no_fault .readInOwnInitializer target.name ?_
      rw [Expr.findings, Setting.read, if_pos hpending]
      exact List.mem_cons_self
    · refine Resolved.locates (h.of_faults fun id scopes => ?_) rfl
      split <;> simp
  | .assign target value, setting, hsound, hproper, h => by
    have hlocate := setting.covers_locate target.id target.name.text
      ⟨.write, target.id, target.name⟩ rfl
    have hswap : Resolved table bound
        (value.findings setting ++ setting.locate target.id target.name.text)
        (value.mentions ++ [⟨.write, target.id, target.name⟩]) := Resolved.swap h
    refine ⟨hproper _ List.mem_cons_self rfl, ?_, ?_⟩
    · exact (hswap.right (value.covers setting)).locates rfl
    · exact value.placed hsound (fun m hm => hproper m (List.mem_cons_of_mem _ hm))
        (hswap.left hlocate)
  | .call callee arguments _, setting, hsound, hproper, h =>
    have hproper := unreserved_append.mp hproper
    ⟨callee.placed hsound hproper.1 (h.left (Expr.coversEach arguments setting)),
      Expr.placedEach arguments hsound hproper.2 (h.right (callee.covers setting))⟩
  | .get object _, _, hsound, hproper, h => object.placed hsound hproper h
  | .set object _ value, setting, hsound, hproper, h =>
    have hproper := unreserved_append.mp hproper
    ⟨object.placed hsound hproper.1 (h.swap.right (value.covers setting)),
      value.placed hsound hproper.2 (h.swap.left (object.covers setting))⟩
  | .thisRef id line, setting, hsound, _, h => by
    have hclass : setting.enclosingClass ≠ .none := by
      intro hnone
      refine h.no_fault .thisOutsideClass ⟨"this", line⟩ ?_
      rw [Expr.findings, Setting.readThis, hnone]
      exact List.mem_cons_self
    refine ⟨Resolved.locates (m := ⟨.this, id, ⟨"this", line⟩⟩) ?_ rfl, hsound.this hclass⟩
    rw [Expr.findings, Setting.readThis] at h
    cases hc : setting.enclosingClass with
    | none => exact absurd hc hclass
    | base | derived =>
      rw [hc] at h
      exact h
  | .superRef id line method, setting, hsound, _, h => by
    have hclass : setting.enclosingClass = .derived := by
      cases hc : setting.enclosingClass with
      | derived => rfl
      | none | base =>
        rw [Expr.findings, Setting.readSuper, hc] at h
        exact absurd List.mem_cons_self (h.no_fault _ _)
    rw [Expr.findings, Setting.readSuper, hclass] at h
    exact ⟨Resolved.locates (m := ⟨.super, id, ⟨method.text, line⟩⟩) h rfl, hsound.super hclass⟩

theorem Expr.placedEach : ∀ (es : List Expr) {setting : Setting}, setting.Sound →
    Unreserved (Expr.mentionsEach es) →
    Resolved table bound (Expr.findingsEach setting es) (Expr.mentionsEach es) →
    Expr.PlacedEach table bound setting es
  | [], _, _, _, _ => trivial
  | e :: es, setting, hsound, hproper, h =>
    have hproper := unreserved_append.mp hproper
    ⟨e.placed hsound hproper.1 (h.left (Expr.coversEach es setting)),
      Expr.placedEach es hsound hproper.2 (h.right (e.covers setting))⟩

end

mutual

theorem Stmt.placed : ∀ (s : Stmt) {setting : Setting}, setting.Sound → s.Proper →
    Resolved table bound (s.findings setting) s.mentions → s.Placed table bound setting
  | .expression value, _, hsound, hproper, h => value.placed hsound hproper h
  | .print value, _, hsound, hproper, h => value.placed hsound hproper h
  | .varDecl name none, setting, _, hproper, h =>
    Resolved.admits (by rwa [List.append_nil]) hproper
  | .varDecl name (some value), setting, hsound, hproper, h =>
    ⟨h.admits hproper.1, value.placed (hsound.initializing hproper.1) hproper.2
      (h.of_faults (setting.distance_not_mem_declaration name))⟩
  | .block body, _, hsound, hproper, h => Stmt.placedEach body (hsound.push nofun) hproper h
  | .ifElse condition thenBranch none, setting, hsound, ⟨hcondition, hdecl, hthen⟩, h =>
    ⟨condition.placed hsound hcondition (h.left (thenBranch.covers setting)), hdecl,
      thenBranch.placed hsound hthen (h.right (condition.covers setting))⟩
  | .ifElse condition thenBranch (some elseBranch), setting, hsound,
      ⟨hcondition, ⟨hdecl, hthen⟩, hdecl', helse⟩, h =>
    have hboth := h.left (elseBranch.covers setting)
    ⟨condition.placed hsound hcondition (hboth.left (thenBranch.covers setting)),
      ⟨hdecl, thenBranch.placed hsound hthen (hboth.right (condition.covers setting))⟩, hdecl',
      elseBranch.placed hsound helse
        (h.right ((condition.covers setting).append (thenBranch.covers setting)))⟩
  | .whileLoop condition body, setting, hsound, ⟨hcondition, hdecl, hbody⟩, h =>
    ⟨condition.placed hsound hcondition (h.left (body.covers setting)), hdecl,
      body.placed hsound hbody (h.right (condition.covers setting))⟩
  | .funDecl ⟨name, params, body⟩, setting, hsound, hproper, h =>
    ⟨h.admits hproper.1, FunctionDecl.placed ⟨name, params, body⟩
      ((hsound.declare hproper.1).withEnclosing .function) hproper
      (h.of_faults (setting.distance_not_mem_declaration name))⟩
  | .returnValue _ none, _, _, _, _ => trivial
  | .returnValue line (some value), setting, hsound, hproper, h =>
    value.placed hsound hproper (h.of_faults (setting.distance_not_mem_leave line true))
  | .classDecl declared, _, _, hproper, h => declared.placed hproper h

theorem Stmt.placedEach : ∀ (ss : List Stmt) {setting : Setting}, setting.Sound →
    Stmt.ProperEach ss →
    Resolved table bound (Stmt.findingsEach setting ss) (Stmt.mentionsEach ss) →
    Stmt.PlacedEach table bound setting ss
  | [], _, _, _, _ => trivial
  | s :: ss, setting, hsound, ⟨hs, hss⟩, h =>
    ⟨s.placed hsound hs (h.left (Stmt.coversEach ss _)),
      Stmt.placedEach ss (hsound.after hs) hss (h.right (s.covers setting))⟩

theorem FunctionDecl.placed : ∀ (f : FunctionDecl) {setting : Setting}, setting.Sound → f.Proper →
    Resolved table bound (f.findings setting) f.mentions → f.Placed table bound setting
  | ⟨_, params, body⟩, setting, hsound, ⟨_, hparams, hbody⟩, h => by
    have hnodup := Setting.nodup_of_parameters
      fun error name hmem => h.no_fault error name (List.mem_append_left _ hmem)
    have hinside : ((setting.push []).parameters params).2 = setting.inside params := by
      rw [Setting.parameters_snd, List.append_nil, Setting.inside]
    have hsound' : (setting.inside params).Sound := by
      refine hsound.push fun name hmem => ?_
      obtain ⟨param, hparam, rfl⟩ := List.mem_map.mp (List.mem_reverse.mp hmem)
      exact hparams param hparam
    refine ⟨hnodup.1, hparams, Stmt.placedEach body hsound' hbody ?_⟩
    rw [← hinside]
    exact h.of_faults ((setting.push []).distance_not_mem_parameters params)

theorem FunctionDecl.placedEach : ∀ (fs : List FunctionDecl) {setting : Setting}, setting.Sound →
    FunctionDecl.ProperEach fs →
    Resolved table bound (FunctionDecl.findingsEach setting fs) (FunctionDecl.mentionsEach fs) →
    FunctionDecl.PlacedEach table bound setting fs
  | [], _, _, _, _ => trivial
  | f :: fs, setting, hsound, ⟨hf, hfs⟩, h =>
    ⟨f.placed (hsound.withEnclosing _) hf (h.left (FunctionDecl.coversEach fs setting)),
      FunctionDecl.placedEach fs hsound hfs (h.right (f.covers _))⟩

theorem ClassDecl.placed : ∀ (c : ClassDecl) {setting : Setting}, c.Proper →
    Resolved table bound (c.findings setting) c.mentions → c.Placed table bound setting
  | ⟨name, none, methods⟩, setting, ⟨hname, hmethods⟩, h =>
    ⟨h.admits hname, FunctionDecl.placedEach methods (setting.sound_insideClass _) hmethods
      (h.of_faults (setting.distance_not_mem_declaration name))⟩
  | ⟨name, some superclass, methods⟩, setting, ⟨hname, hmethods⟩, h => by
    rw [ClassDecl.findings, List.append_assoc, List.append_assoc] at h
    have hne : superclass.name.text ≠ name.text := by
      intro heq
      rw [if_pos heq] at h
      exact h.no_fault _ _ (List.mem_append_right _ List.mem_cons_self)
    have hrest := h.of_faults (setting.distance_not_mem_declaration name)
    rw [if_neg hne, List.nil_append] at hrest
    have hread : Resolved table bound ((setting.declare name).read superclass)
        [⟨.read, superclass.id, superclass.name⟩] :=
      Resolved.left hrest (FunctionDecl.coversEach methods _)
    refine ⟨h.admits hname, hne, ?_, ?_⟩
    · have hlocates := Resolved.locates (hread.of_faults fun id scopes => by split <;> simp) rfl
      rwa [Setting.Locates, Setting.distance?_declare setting hne] at hlocates
    · exact FunctionDecl.placedEach methods (setting.sound_insideClass ⟨name, some superclass, methods⟩)
        hmethods (Resolved.right hrest
          ((setting.declare name).covers_read superclass _ rfl))

end

/-! ### Programs -/

/-- No id from the bound on is in the table. -/
def Distances.Below (table : Distances) (bound : Nat) : Prop :=
  ∀ id, bound ≤ id → table[id]? = none

variable {p : Program} {n n' : Nat}

theorem mem_distances {id scopes : Nat} :
    (id, scopes) ∈ p.distances ↔ .distance id scopes ∈ p.findings := by
  rw [Program.distances, List.mem_filterMap]
  constructor
  · rintro ⟨f, hf, heq⟩
    cases f with
    | distance id' scopes' =>
      cases heq
      exact hf
    | fault error name => cases heq
  · exact fun h => ⟨_, h, rfl⟩

theorem nodup_distances (h : Numbered n n' (Stmt.mentionsEach p)) :
    (p.distances.map Prod.fst).Nodup := by
  obtain ⟨ids, hperm, hsublist⟩ := Stmt.coversEach p .topLevel
  exact hperm.nodup_iff.mp (hsublist.nodup h.nodup)

theorem extend_eq_of_mem (h : Numbered n n' (Stmt.mentionsEach p)) {id scopes : Nat}
    (hmem : .distance id scopes ∈ p.findings) : (table.extend p.distances)[id]? = some scopes := by
  refine Std.TreeMap.getElem?_insertMany_list_of_mem (k := id) Std.ReflCmp.compare_self ?_
    (mem_distances.mpr hmem)
  have hnodup := nodup_distances h
  rw [List.Nodup, List.pairwise_map] at hnodup
  exact hnodup.imp fun hne heq => hne (Std.LawfulEqCmp.eq_of_compare heq)

theorem extend_eq_of_not_mem {id : Nat}
    (hnone : ∀ scopes, .distance id scopes ∉ p.findings) :
    (table.extend p.distances)[id]? = table[id]? := by
  refine Std.TreeMap.getElem?_insertMany_list_of_contains_eq_false ?_
  rw [Bool.eq_false_iff, ne_eq, List.contains_iff_mem]
  intro hmem
  obtain ⟨⟨id', scopes⟩, hpair, rfl⟩ := List.mem_map.mp hmem
  exact hnone scopes (mem_distances.mp hpair)

/-- The findings of a program without faults are resolved in the extended table. -/
theorem resolved_extend (h : Numbered n n' (Stmt.mentionsEach p)) (hbelow : table.Below n)
    (hfaults : p.scopingFaults = []) :
    Resolved (table.extend p.distances) n' p.findings (Stmt.mentionsEach p) := by
  refine ⟨fun f hf => ?_, fun m hm hnone => ?_, h.nodup, fun m hm => (h.range m hm).2⟩
  · cases f with
    | distance id scopes => exact ⟨id, scopes, rfl, extend_eq_of_mem h hf⟩
    | fault error name =>
      rw [Program.scopingFaults, List.filterMap_eq_nil_iff] at hfaults
      exact absurd (hfaults _ hf) (by simp [Finding.diagnostic?])
  · rw [extend_eq_of_not_mem hnone]
    exact hbelow m.id (h.range m hm).1

/-- A proper program without scoping faults is placed in the extended table. -/
theorem Program.placed (h : Numbered n n' (Stmt.mentionsEach p)) (hbelow : table.Below n)
    (hproper : Stmt.ProperEach p) (hfaults : p.scopingFaults = []) :
    Stmt.PlacedEach (table.extend p.distances) n' .topLevel p :=
  Stmt.placedEach p Setting.sound_topLevel hproper (resolved_extend h hbelow hfaults)

/-- The distances of a program are those of ids that it numbers. -/
theorem agrees_extend (h : Numbered n n' (Stmt.mentionsEach p)) :
    table.Agrees n (table.extend p.distances) n' := by
  refine ⟨h.le, fun id hid => extend_eq_of_not_mem fun scopes hmem => ?_⟩
  obtain ⟨m, hm, rfl⟩ := (Stmt.coversEach p .topLevel).mem hmem
  exact absurd (h.range m hm).1 (Nat.not_le.mpr hid)

theorem Distances.Below.extend (h : Numbered n n' (Stmt.mentionsEach p))
    (hbelow : table.Below n) : (table.extend p.distances).Below n' := by
  intro id hid
  rw [extend_eq_of_not_mem fun scopes hmem => ?_]
  · exact hbelow id (Nat.le_trans h.le hid)
  · obtain ⟨m, hm, rfl⟩ := (Stmt.coversEach p .topLevel).mem hmem
    exact absurd (h.range m hm).2 (Nat.not_lt.mpr hid)

end Lox
