/-
Blocks that can be left out of a program.

`Stmt.strip` leaves out every block around a single statement that declares nothing.
Programs that are the same without such blocks look alike.  A `Frame` is what surrounds a
statement directly; a position in a program is given by the frames around it.

* `resemblance_strip` — statements look alike if they are the same without blocks;
* `Frame`, `Frame.fill` — the surroundings of a statement;
* `Stmt.Exchangeable` — statements of which one can stand in the place of the other;
* `Frame.exchangeable_fillEach` — a block can be put around a statement anywhere in a
  program.
-/
import Lox.Proofs.Blocks.Evaluation

namespace Lox

/-- The statements as one: the block of them, unless it can be left out. -/
def Stmt.ofBlock : List Stmt → Stmt
  | [s] => if s.declares then .block [s] else s
  | body => .block body

mutual

/-- The statement without the blocks that can be left out. -/
def Stmt.strip : Stmt → Stmt
  | .block body => .ofBlock (Stmt.stripEach body)
  | .ifElse condition thenBranch none => .ifElse condition thenBranch.strip none
  | .ifElse condition thenBranch (some elseBranch) =>
    .ifElse condition thenBranch.strip (some elseBranch.strip)
  | .whileLoop condition body => .whileLoop condition body.strip
  | .funDecl function => .funDecl function.strip
  | .classDecl declared => .classDecl declared.strip
  | .expression value => .expression value
  | .print value => .print value
  | .varDecl name initializer => .varDecl name initializer
  | .returnValue line value => .returnValue line value

/-- All statements without the blocks that can be left out. -/
def Stmt.stripEach : List Stmt → List Stmt
  | [] => []
  | s :: ss => s.strip :: Stmt.stripEach ss

/-- The function without the blocks that can be left out. -/
def FunctionDecl.strip : FunctionDecl → FunctionDecl
  | ⟨name, params, body⟩ => ⟨name, params, Stmt.stripEach body⟩

/-- All functions without the blocks that can be left out. -/
def FunctionDecl.stripEach : List FunctionDecl → List FunctionDecl
  | [] => []
  | f :: fs => f.strip :: FunctionDecl.stripEach fs

/-- The class without the blocks that can be left out. -/
def ClassDecl.strip : ClassDecl → ClassDecl
  | ⟨name, superclass, methods⟩ => ⟨name, superclass, FunctionDecl.stripEach methods⟩

end

theorem Stmt.stripEach_eq_map (ss : List Stmt) : Stmt.stripEach ss = ss.map Stmt.strip := by
  induction ss with
  | nil => rfl
  | cons s ss ih => exact congrArg (s.strip :: ·) ih

theorem FunctionDecl.stripEach_eq_map (fs : List FunctionDecl) :
    FunctionDecl.stripEach fs = fs.map FunctionDecl.strip := by
  induction fs with
  | nil => rfl
  | cons f fs ih => exact congrArg (f.strip :: ·) ih

/-- The recoding that leaves out blocks. -/
def Recoding.strip : Recoding where
  line := id
  decl := FunctionDecl.strip
  decl_name := fun ⟨_, _, _⟩ => rfl
  decl_params := fun ⟨_, _, _⟩ => rfl

/-! ### Stripped statements -/

theorem Stmt.declares_ofBlock (body : List Stmt) : (ofBlock body).declares = false := by
  unfold ofBlock
  split
  · split
    · rfl
    · rename_i h
      exact Bool.eq_false_iff.mpr h
  · rfl

theorem Stmt.declares_strip : ∀ s : Stmt, s.strip.declares = s.declares
  | .expression _ | .print _ | .varDecl _ _ | .funDecl _ | .returnValue _ _ | .classDecl _ => rfl
  | .block _ => declares_ofBlock _
  | .ifElse _ thenBranch none => thenBranch.declares_strip
  | .ifElse _ thenBranch (some elseBranch) =>
    congrArg₂ (· || ·) thenBranch.declares_strip elseBranch.declares_strip
  | .whileLoop _ body => body.declares_strip

/-- A block around a statement that declares nothing is left out. -/
theorem Stmt.strip_block {s : Stmt} (h : s.declares = false) : (block [s]).strip = s.strip := by
  show (if s.strip.declares then block [s.strip] else s.strip) = s.strip
  rw [declares_strip, h]
  rfl

theorem Wraps.strip {s t : Stmt} (h : Wraps s t) : s.strip = t.strip := by
  induction h with
  | refl s => rfl
  | block hs _ ih => rw [Stmt.strip_block hs, ih]

/-- A block that can be left out. -/
def Stmt.Removable (s : Stmt) : Prop :=
  ∃ t, s = .block [t] ∧ t.declares = false

/-- Inside of its blocks a statement is no block that can be left out. -/
theorem Stmt.exists_wraps : ∀ s : Stmt, ∃ t, Wraps s t ∧ ¬ t.Removable
  | .block [s] => by
    by_cases hs : s.declares
    · refine ⟨_, .refl _, ?_⟩
      rintro ⟨t, heq, ht⟩
      cases heq
      rw [ht] at hs
      cases hs
    · obtain ⟨t, hwraps, ht⟩ := s.exists_wraps
      exact ⟨t, .block (Bool.eq_false_iff.mpr hs) hwraps, ht⟩
  | .block [] | .block (_ :: _ :: _) => ⟨_, .refl _, fun ⟨_, heq, _⟩ => nomatch heq⟩
  | .expression _ | .print _ | .varDecl _ _ | .ifElse _ _ _ | .whileLoop _ _ | .funDecl _
  | .returnValue _ _ | .classDecl _ => ⟨_, .refl _, fun ⟨_, heq, _⟩ => nomatch heq⟩

/-- The same form with stripped parts. -/
def Stmt.stripParts : Stmt → Stmt
  | .block body => .block (Stmt.stripEach body)
  | .ifElse condition thenBranch elseBranch =>
    .ifElse condition thenBranch.strip (elseBranch.map Stmt.strip)
  | s => s.strip

/-- Of a block that cannot be left out, only the parts are stripped. -/
theorem Stmt.strip_eq_stripParts {s : Stmt} (h : ¬ s.Removable) : s.strip = s.stripParts := by
  cases s with
  | block body =>
    match body with
    | [] | _ :: _ :: _ => rfl
    | [s] =>
      have hs : s.declares = true := by
        by_contra hs
        exact h ⟨s, rfl, Bool.eq_false_iff.mpr hs⟩
      show (if s.strip.declares then block [s.strip] else s.strip) = _
      rw [declares_strip, if_pos hs]
      rfl
  | ifElse condition thenBranch elseBranch => cases elseBranch <;> rfl
  | _ => rfl

theorem Stmt.stripEach_eq_iff {ss ss' : List Stmt} :
    Stmt.stripEach ss = Stmt.stripEach ss' ↔
      List.Forall₂ (fun s s' : Stmt => s.strip = s'.strip) ss ss' := by
  rw [stripEach_eq_map, stripEach_eq_map, ← List.forall₂_eq_eq_eq, List.forall₂_map_left_iff,
    List.forall₂_map_right_iff]

/-- Statements that are the same without blocks, and are no such blocks themselves, have the
same form. -/
theorem twins_of_strip {s s' : Stmt} (h : s.strip = s'.strip) (hs : ¬ s.Removable)
    (hs' : ¬ s'.Removable) : Twins .strip (fun s s' => s.strip = s'.strip) s s' := by
  -- Neither of them is a block that is left out, so their own forms are still there.
  rw [Stmt.strip_eq_stripParts hs, Stmt.strip_eq_stripParts hs'] at h
  cases s with
  | expression value =>
    cases s' with
    | expression value' => cases h; exact .expression value
    | _ => cases h
  | print value =>
    cases s' with
    | print value' => cases h; exact .print value
    | _ => cases h
  | varDecl name initializer =>
    cases s' with
    | varDecl name' initializer' => cases h; exact .varDecl name initializer
    | _ => cases h
  | block body =>
    cases s' with
    | block body' => exact .block (Stmt.stripEach_eq_iff.mp (Stmt.block.inj h))
    | _ => cases h
  | ifElse condition thenBranch elseBranch =>
    cases s' with
    | ifElse condition' thenBranch' elseBranch' =>
      obtain ⟨rfl, hthen, helse⟩ := Stmt.ifElse.inj h
      cases elseBranch with
      | none =>
        cases Option.map_eq_none_iff.mp helse.symm
        exact .ifThen condition hthen
      | some elseBranch =>
        obtain ⟨elseBranch', rfl, helse'⟩ := Option.map_eq_some_iff.mp helse.symm
        exact .ifElse condition hthen helse'.symm
    | _ => cases h
  | whileLoop condition body =>
    cases s' with
    | whileLoop condition' body' =>
      obtain ⟨rfl, hbody⟩ := Stmt.whileLoop.inj h
      exact .whileLoop condition hbody
    | _ => cases h
  | funDecl f =>
    cases s' with
    | funDecl f' => exact .funDecl (Stmt.funDecl.inj h)
    | _ => cases h
  | returnValue line value =>
    cases s' with
    | returnValue line' value' => cases h; exact .returnValue line value
    | _ => cases h
  | classDecl c =>
    cases s' with
    | classDecl c' =>
      obtain ⟨name, superclass, methods⟩ := c
      obtain ⟨name', superclass', methods'⟩ := c'
      obtain ⟨rfl, rfl, hmethods⟩ := ClassDecl.mk.inj (Stmt.classDecl.inj h)
      rw [FunctionDecl.stripEach_eq_map, FunctionDecl.stripEach_eq_map] at hmethods
      exact .classDecl hmethods
    | _ => cases h

/-- Statements look alike if they are the same without the blocks that can be left out. -/
theorem resemblance_strip : Resemblance .strip fun s s' => s.strip = s'.strip where
  unwrap {s s'} h := by
    -- Blocks come off the first statement one by one, off the second one all at once.
    by_cases hs : s.Removable
    · obtain ⟨t, rfl, ht⟩ := hs
      exact .inl ⟨t, rfl, ht, (Stmt.strip_block ht).symm.trans h⟩
    · obtain ⟨t', hwraps, ht'⟩ := s'.exists_wraps
      exact .inr ⟨t', hwraps, twins_of_strip (h.trans hwraps.strip) hs ht'⟩
  body {f f'} h := by
    obtain ⟨name, params, body⟩ := f
    obtain ⟨name', params', body'⟩ := f'
    exact Stmt.stripEach_eq_iff.mp (FunctionDecl.mk.inj h).2.2

/-! ### Positions -/

/-- The direct surroundings of a statement: a block, one of the branches of an `if`, a loop
or the body of a function or method. -/
inductive Frame where
  | block (before after : List Stmt)
  | thenBranch (condition : Expr) (otherwise : Option Stmt)
  | elseBranch (condition : Expr) (first : Stmt)
  | loop (condition : Expr)
  | function (name : Name) (params : List Name) (before after : List Stmt)
  | method (cls : Name) (superclass : Option Reference) (methodsBefore : List FunctionDecl)
    (name : Name) (params : List Name) (before after : List Stmt)
    (methodsAfter : List FunctionDecl)

/-- The statement in these surroundings. -/
def Frame.fill : Frame → Stmt → Stmt
  | .block before after, s => .block (before ++ s :: after)
  | .thenBranch condition otherwise, s => .ifElse condition s otherwise
  | .elseBranch condition first, s => .ifElse condition first (some s)
  | .loop condition, s => .whileLoop condition s
  | .function name params before after, s => .funDecl ⟨name, params, before ++ s :: after⟩
  | .method cls superclass methodsBefore name params before after methodsAfter, s =>
    .classDecl ⟨cls, superclass,
      methodsBefore ++ ⟨name, params, before ++ s :: after⟩ :: methodsAfter⟩

/-- The second statement can stand wherever the first one stands in a program. -/
structure Stmt.Exchangeable (s s' : Stmt) : Prop where
  isDeclaration : s'.isDeclaration = s.isDeclaration
  after (σ : Setting) : σ.after s' = σ.after s
  findings (σ : Setting) : faults (s'.findings σ) = faults (s.findings σ)
  mentions : s'.mentions = s.mentions
  proper : s.Proper → s'.Proper
  strip : s'.strip = s.strip

/-- The second function can stand in the place of the first one. -/
structure FunctionDecl.Exchangeable (f f' : FunctionDecl) : Prop where
  name : f'.name = f.name
  findings (σ : Setting) : faults (f'.findings σ) = faults (f.findings σ)
  mentions : f'.mentions = f.mentions
  proper : f.Proper → f'.Proper
  strip : f'.strip = f.strip

/-- A statement that declares nothing and a block around it. -/
theorem Stmt.exchangeable_block {s : Stmt} (hs : s.isDeclaration = false) (hproper : s.Proper) :
    s.Exchangeable (block [s]) := by
  have hdeclares := s.declares_of_proper hs hproper
  refine ⟨hs.symm, fun σ => ?_, Stmt.faults_block hdeclares, List.append_nil _, fun h => ⟨h, trivial⟩,
    strip_block hdeclares⟩
  cases s with
  | varDecl _ _ | funDecl _ | classDecl _ => cases hs
  | _ => rfl

namespace Stmt.Exchangeable

variable {s s' : Stmt} (h : s.Exchangeable s')
include h

theorem stripEach (before after : List Stmt) :
    Stmt.stripEach (before ++ s' :: after) = Stmt.stripEach (before ++ s :: after) := by
  simp only [Stmt.stripEach_eq_map, List.map_append, List.map_cons, h.strip]

theorem mentionsEach (before after : List Stmt) :
    Stmt.mentionsEach (before ++ s' :: after) = Stmt.mentionsEach (before ++ s :: after) := by
  rw [Stmt.mentionsEach_append, Stmt.mentionsEach_append, Stmt.mentionsEach, Stmt.mentionsEach,
    h.mentions]

theorem findingsEach (before after : List Stmt) (σ : Setting) :
    faults (Stmt.findingsEach σ (before ++ s' :: after)) =
      faults (Stmt.findingsEach σ (before ++ s :: after)) := by
  induction before generalizing σ with
  | nil =>
    show faults (s'.findings σ ++ Stmt.findingsEach (σ.after s') after) =
      faults (s.findings σ ++ Stmt.findingsEach (σ.after s) after)
    rw [faults_append, faults_append, h.findings, h.after]
  | cons t before ih =>
    show faults (t.findings σ ++ _) = faults (t.findings σ ++ _)
    rw [faults_append, faults_append]
    exact congrArg (faults (t.findings σ) ++ ·) (ih (σ.after t))

theorem properEach (before after : List Stmt) (hproper : Stmt.ProperEach (before ++ s :: after)) :
    Stmt.ProperEach (before ++ s' :: after) := by
  induction before with
  | nil => exact ⟨h.proper hproper.1, hproper.2⟩
  | cons t before ih => exact ⟨hproper.1, ih hproper.2⟩

theorem function (name : Name) (params : List Name) (before after : List Stmt) :
    FunctionDecl.Exchangeable ⟨name, params, before ++ s :: after⟩
      ⟨name, params, before ++ s' :: after⟩ := by
  refine ⟨rfl, fun σ => ?_, h.mentionsEach before after, fun hproper => ?_,
    congrArg (FunctionDecl.mk name params) (h.stripEach before after)⟩
  · show faults (_ ++ Stmt.findingsEach _ _) = faults (_ ++ Stmt.findingsEach _ _)
    rw [faults_append, faults_append, h.findingsEach]
  · exact ⟨hproper.1, hproper.2.1, h.properEach before after hproper.2.2⟩

end Stmt.Exchangeable

namespace FunctionDecl.Exchangeable

variable {f f' : FunctionDecl} (h : f.Exchangeable f') (before after : List FunctionDecl)
include h

theorem findingsEach (σ : Setting) :
    faults (FunctionDecl.findingsEach σ (before ++ f' :: after)) =
      faults (FunctionDecl.findingsEach σ (before ++ f :: after)) := by
  -- A method is an initializer by its name.
  have hinitializer : f'.isInitializer = f.isInitializer := by
    rw [isInitializer, isInitializer, h.name]
  induction before with
  | nil =>
    show faults (f'.findings _ ++ _) = faults (f.findings _ ++ _)
    rw [faults_append, faults_append, hinitializer, h.findings]
  | cons g before ih =>
    show faults (g.findings _ ++ _) = faults (g.findings _ ++ _)
    rw [faults_append, faults_append]
    exact congrArg (faults (g.findings _) ++ ·) ih

theorem mentionsEach : FunctionDecl.mentionsEach (before ++ f' :: after) =
    FunctionDecl.mentionsEach (before ++ f :: after) := by
  induction before with
  | nil =>
    show f'.mentions ++ _ = f.mentions ++ _
    rw [h.mentions]
  | cons g before ih => exact congrArg (g.mentions ++ ·) ih

theorem properEach (hproper : FunctionDecl.ProperEach (before ++ f :: after)) :
    FunctionDecl.ProperEach (before ++ f' :: after) := by
  induction before with
  | nil => exact ⟨h.proper hproper.1, hproper.2⟩
  | cons g before ih => exact ⟨hproper.1, ih hproper.2⟩

theorem stripEach : FunctionDecl.stripEach (before ++ f' :: after) =
    FunctionDecl.stripEach (before ++ f :: after) := by
  simp only [FunctionDecl.stripEach_eq_map, List.map_append, List.map_cons, h.strip]

end FunctionDecl.Exchangeable

/-- In the same surroundings one statement can still stand in the place of the other. -/
theorem Frame.exchangeable {s s' : Stmt} (h : s.Exchangeable s') :
    ∀ frame : Frame, (frame.fill s).Exchangeable (frame.fill s')
  | .block before after => by
    refine ⟨rfl, fun σ => rfl, fun σ => h.findingsEach before after _, h.mentionsEach before after,
      h.properEach before after, ?_⟩
    exact congrArg Stmt.ofBlock (h.stripEach before after)
  | .thenBranch condition none => by
    refine ⟨rfl, fun σ => rfl, fun σ => ?_, ?_, fun hproper => ?_, ?_⟩
    · simp only [fill, Stmt.findings, faults_append, h.findings]
    · simp only [fill, Stmt.mentions, h.mentions]
    · exact ⟨hproper.1, h.isDeclaration.trans hproper.2.1, h.proper hproper.2.2⟩
    · simp only [fill, Stmt.strip, h.strip]
  | .thenBranch condition (some otherwise) => by
    refine ⟨rfl, fun σ => rfl, fun σ => ?_, ?_, fun hproper => ?_, ?_⟩
    · simp only [fill, Stmt.findings, faults_append, h.findings]
    · simp only [fill, Stmt.mentions, h.mentions]
    · obtain ⟨hcondition, ⟨hs, hproper⟩, hother⟩ := hproper
      exact ⟨hcondition, ⟨h.isDeclaration.trans hs, h.proper hproper⟩, hother⟩
    · simp only [fill, Stmt.strip, h.strip]
  | .elseBranch condition first => by
    refine ⟨rfl, fun σ => rfl, fun σ => ?_, ?_, fun hproper => ?_, ?_⟩
    · simp only [fill, Stmt.findings, faults_append, h.findings]
    · simp only [fill, Stmt.mentions, h.mentions]
    · obtain ⟨hcondition, hfirst, hs, hproper⟩ := hproper
      exact ⟨hcondition, hfirst, h.isDeclaration.trans hs, h.proper hproper⟩
    · simp only [fill, Stmt.strip, h.strip]
  | .loop condition => by
    refine ⟨rfl, fun σ => rfl, fun σ => ?_, ?_, fun hproper => ?_, ?_⟩
    · simp only [fill, Stmt.findings, faults_append, h.findings]
    · simp only [fill, Stmt.mentions, h.mentions]
    · exact ⟨hproper.1, h.isDeclaration.trans hproper.2.1, h.proper hproper.2.2⟩
    · simp only [fill, Stmt.strip, h.strip]
  | .function name params before after => by
    have hf := h.function name params before after
    refine ⟨rfl, fun σ => rfl, fun σ => ?_, hf.mentions, hf.proper, congrArg Stmt.funDecl hf.strip⟩
    simp only [fill, Stmt.findings, faults_append, hf.findings]
  | .method cls superclass methodsBefore name params before after methodsAfter => by
    have hf := h.function name params before after
    refine ⟨rfl, fun σ => rfl, fun σ => ?_, ?_, fun hproper => ?_, ?_⟩
    · cases superclass <;>
        simp only [fill, Stmt.findings, ClassDecl.findings, faults_append, hf.findingsEach]
    · cases superclass <;>
        simp only [fill, Stmt.mentions, ClassDecl.mentions, hf.mentionsEach]
    · exact ⟨hproper.1, hf.properEach methodsBefore methodsAfter hproper.2⟩
    · simp only [fill, Stmt.strip, ClassDecl.strip, hf.stripEach]

theorem properEach_split {before after : List Stmt} {s : Stmt}
    (h : Stmt.ProperEach (before ++ s :: after)) : s.Proper := by
  induction before with
  | nil => exact h.1
  | cons t before ih => exact ih h.2

theorem properEach_split' {before after : List FunctionDecl} {f : FunctionDecl}
    (h : FunctionDecl.ProperEach (before ++ f :: after)) : f.Proper := by
  induction before with
  | nil => exact h.1
  | cons g before ih => exact ih h.2

/-- A statement in a proper one is proper. -/
theorem Frame.proper {s : Stmt} : ∀ frame : Frame, (frame.fill s).Proper → s.Proper
  | .block _ _, h => properEach_split h
  | .thenBranch _ none, h => h.2.2
  | .thenBranch _ (some _), h => h.2.1.2
  | .elseBranch _ _, h => h.2.2.2
  | .loop _, h => h.2.2
  | .function _ _ _ _, h => properEach_split h.2.2
  | .method _ _ _ _ _ _ _ _, h => properEach_split (properEach_split' h.2).2.2

/-- The statement in all these surroundings, the outermost first. -/
def Frame.fillEach (frames : List Frame) (s : Stmt) : Stmt :=
  frames.foldr Frame.fill s

theorem Frame.exchangeable_fillEach {s s' : Stmt} (h : s.Exchangeable s') (frames : List Frame) :
    (fillEach frames s).Exchangeable (fillEach frames s') := by
  induction frames with
  | nil => exact h
  | cons frame frames ih => exact frame.exchangeable ih

theorem Frame.proper_fillEach {s : Stmt} (frames : List Frame) (h : (fillEach frames s).Proper) :
    s.Proper := by
  induction frames with
  | nil => exact h
  | cons frame frames ih => exact ih (frame.proper h)

end Lox
