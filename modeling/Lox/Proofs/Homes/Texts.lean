/-
The functions and classes that are written in a program, and which mentions are whose.

* `Stmt.texts` — the texts of all functions, methods and classes in a statement, those
  within others included;
* `Stmt.ownMentions` — the mentions in a statement but not in a class in it: a `this` or
  `super` in a nested class is not one of the class around it;
* `Stmt.mentions_of_mem_texts` — a function mentions only what its program does.
-/
import Lox.Syntax.Mentions

namespace Lox

/-- A function or method, or a class, as it is written. -/
inductive Text where
  | function (decl : FunctionDecl)
  | cls (decl : ClassDecl)

mutual

/-- The functions and classes in a statement. -/
def Stmt.texts : Stmt → List Text
  | .block body => Stmt.textsEach body
  | .ifElse _ thenBranch none => thenBranch.texts
  | .ifElse _ thenBranch (some elseBranch) => thenBranch.texts ++ elseBranch.texts
  | .whileLoop _ body => body.texts
  | .funDecl function => function.texts
  | .classDecl declared => declared.texts
  | _ => []

/-- The functions and classes in several statements. -/
def Stmt.textsEach : List Stmt → List Text
  | [] => []
  | s :: ss => s.texts ++ Stmt.textsEach ss

/-- The function itself, and the functions and classes in it. -/
def FunctionDecl.texts : FunctionDecl → List Text
  | ⟨name, params, body⟩ => .function ⟨name, params, body⟩ :: Stmt.textsEach body

/-- The functions, and the functions and classes in them. -/
def FunctionDecl.textsEach : List FunctionDecl → List Text
  | [] => []
  | f :: fs => f.texts ++ FunctionDecl.textsEach fs

/-- The class itself, its methods, and the functions and classes in them. -/
def ClassDecl.texts : ClassDecl → List Text
  | ⟨name, superclass, methods⟩ =>
    .cls ⟨name, superclass, methods⟩ :: FunctionDecl.textsEach methods

end

mutual

/-- The mentions in a statement, but for those in the methods of a class in it. -/
def Stmt.ownMentions : Stmt → List Mention
  | .expression value => value.mentions
  | .print value => value.mentions
  | .varDecl _ none => []
  | .varDecl _ (some value) => value.mentions
  | .block body => Stmt.ownMentionsEach body
  | .ifElse condition thenBranch none => condition.mentions ++ thenBranch.ownMentions
  | .ifElse condition thenBranch (some elseBranch) =>
    condition.mentions ++ thenBranch.ownMentions ++ elseBranch.ownMentions
  | .whileLoop condition body => condition.mentions ++ body.ownMentions
  | .funDecl function => function.ownMentions
  | .returnValue _ none => []
  | .returnValue _ (some value) => value.mentions
  | .classDecl ⟨_, none, _⟩ => []
  | .classDecl ⟨_, some superclass, _⟩ => [⟨.read, superclass.id, superclass.name⟩]

/-- The mentions in several statements, but for those in the methods of classes. -/
def Stmt.ownMentionsEach : List Stmt → List Mention
  | [] => []
  | s :: ss => s.ownMentions ++ Stmt.ownMentionsEach ss

/-- The mentions in the body of a function, but for those in the methods of classes. -/
def FunctionDecl.ownMentions : FunctionDecl → List Mention
  | ⟨_, _, body⟩ => Stmt.ownMentionsEach body

end

theorem FunctionDecl.texts_eq (f : FunctionDecl) :
    f.texts = .function f :: Stmt.textsEach f.body := by
  cases f
  rw [FunctionDecl.texts]

theorem ClassDecl.texts_eq (c : ClassDecl) :
    c.texts = .cls c :: FunctionDecl.textsEach c.methods := by
  cases c
  rw [ClassDecl.texts]

theorem FunctionDecl.mem_texts_self (f : FunctionDecl) : .function f ∈ f.texts := by
  rw [texts_eq]
  exact List.mem_cons_self

/-- The texts in a method are among those of its class. -/
theorem FunctionDecl.texts_subset {f : FunctionDecl} {fs : List FunctionDecl} (h : f ∈ fs) :
    f.texts ⊆ FunctionDecl.textsEach fs := by
  induction fs with
  | nil => cases h
  | cons g fs ih =>
    rw [textsEach]
    rcases List.mem_cons.mp h with rfl | h
    · exact List.subset_append_left _ _
    · exact List.subset_append_of_subset_right _ (ih h)

variable {f : FunctionDecl}

mutual

theorem Stmt.mentions_of_mem_texts : ∀ s : Stmt, .function f ∈ s.texts → f.mentions ⊆ s.mentions
  | .block body, h => by
    rw [Stmt.mentions]
    exact Stmt.mentionsEach_of_mem_texts body h
  | .ifElse condition thenBranch none, h => by
    rw [Stmt.mentions]
    exact List.subset_append_of_subset_right _ (Stmt.mentions_of_mem_texts thenBranch h)
  | .ifElse condition thenBranch (some elseBranch), h => by
    rw [Stmt.texts] at h
    rw [Stmt.mentions]
    rcases List.mem_append.mp h with h | h
    · exact List.subset_append_of_subset_left _
        (List.subset_append_of_subset_right _ (Stmt.mentions_of_mem_texts thenBranch h))
    · exact List.subset_append_of_subset_right _ (Stmt.mentions_of_mem_texts elseBranch h)
  | .whileLoop condition body, h => by
    rw [Stmt.mentions]
    exact List.subset_append_of_subset_right _ (Stmt.mentions_of_mem_texts body h)
  | .funDecl function, h => by
    rw [Stmt.mentions]
    exact FunctionDecl.mentions_of_mem_texts function h
  | .classDecl declared, h => by
    rw [Stmt.mentions]
    exact ClassDecl.mentions_of_mem_texts declared h
  | .expression _, h | .print _, h | .varDecl _ _, h | .returnValue _ _, h => by cases h

theorem Stmt.mentionsEach_of_mem_texts : ∀ ss : List Stmt, .function f ∈ Stmt.textsEach ss →
    f.mentions ⊆ Stmt.mentionsEach ss
  | [], h => by cases h
  | s :: ss, h => by
    rw [Stmt.mentionsEach]
    rcases List.mem_append.mp h with h | h
    · exact List.subset_append_of_subset_left _ (Stmt.mentions_of_mem_texts s h)
    · exact List.subset_append_of_subset_right _ (Stmt.mentionsEach_of_mem_texts ss h)

theorem FunctionDecl.mentions_of_mem_texts : ∀ g : FunctionDecl, .function f ∈ g.texts →
    f.mentions ⊆ g.mentions
  | ⟨name, params, body⟩, h => by
    rcases List.mem_cons.mp h with heq | h
    · cases heq
      exact List.Subset.refl _
    · rw [FunctionDecl.mentions]
      exact Stmt.mentionsEach_of_mem_texts body h

theorem FunctionDecl.mentionsEach_of_mem_texts : ∀ gs : List FunctionDecl,
    .function f ∈ FunctionDecl.textsEach gs → f.mentions ⊆ FunctionDecl.mentionsEach gs
  | [], h => by cases h
  | g :: gs, h => by
    rw [FunctionDecl.mentionsEach]
    rcases List.mem_append.mp h with h | h
    · exact List.subset_append_of_subset_left _ (FunctionDecl.mentions_of_mem_texts g h)
    · exact List.subset_append_of_subset_right _ (FunctionDecl.mentionsEach_of_mem_texts gs h)

theorem ClassDecl.mentions_of_mem_texts : ∀ c : ClassDecl, .function f ∈ c.texts →
    f.mentions ⊆ c.mentions
  | ⟨name, none, methods⟩, h => by
    rcases List.mem_cons.mp h with heq | h
    · cases heq
    · rw [ClassDecl.mentions]
      exact FunctionDecl.mentionsEach_of_mem_texts methods h
  | ⟨name, some superclass, methods⟩, h => by
    rcases List.mem_cons.mp h with heq | h
    · cases heq
    · rw [ClassDecl.mentions]
      exact List.subset_cons_of_subset _ (FunctionDecl.mentionsEach_of_mem_texts methods h)

end

end Lox
