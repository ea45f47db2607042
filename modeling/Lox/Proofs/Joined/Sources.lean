/-
Sources that are put one below the other.

* `joined` — sources, one per line or more;
* `Accepted` — a source is accepted on its own, and read as the given program;
* `joined_declarations` — the grammar reads accepted sources that are joined as their
  programs, each moved down to where its source stands;
* `Session.check_of_declarations` — such a source is accepted in every session.
-/
import Lox.Proofs.Lexical.Naming
import Lox.Proofs.Lexing.Seams
import Lox.Proofs.Relabelling.Findings
import Lox.Proofs.Relabelling.Grammar

namespace Lox

/-- Sources, one below the other. -/
def joined : List String → String
  | [] => ""
  | [source] => source
  | source :: sources => source ++ "\n" ++ joined sources

/-- The number of newlines in a source and after it. -/
def height (source : String) : Nat :=
  source.toList.count '\n' + 1

/-- The source is accepted on its own: there is no fault in its tokens, in its syntax or
in its use of names. -/
def Accepted (source : String) (p : Program) : Prop :=
  ((Session.start (.ofLimit none)).check source).1 = .ok p

variable {source : String} {sources : List String} {p : Program} {programs : List Program}

theorem toList_joined_cons (h : sources ≠ []) :
    (joined (source :: sources)).toList = source.toList ++ '\n' :: (joined sources).toList := by
  cases sources with
  | nil => exact absurd rfl h
  | cons next sources =>
    show (source ++ "\n" ++ joined (next :: sources)).toList = _
    rw [String.toList_append, String.toList_append, List.append_assoc]
    rfl

/-! ### Lines -/

/-- Moved down by so many lines. -/
def Relabelling.down (k : Nat) : Relabelling :=
  .lines (· + k)

theorem tokensBeforeEnd_relabel (r : Relabelling) (tokens : List Token) :
    tokensBeforeEnd (tokens.map (Token.relabel r)) =
      (tokensBeforeEnd tokens).map (Token.relabel r) := by
  rw [tokensBeforeEnd, List.takeWhile_map]
  rfl

/-! ### Acceptance -/

theorem Accepted.declarations (h : Accepted source p) :
    Grammar.Declarations (tokensBeforeEnd (TokenStream.ofSource source).tokens) p := by
  obtain ⟨-, hread, rfl, -⟩ := Session.check_eq_ok_iff.mp h
  exact Program.read_sound hread

/-- An accepted source further down. -/
theorem Accepted.down (h : Accepted source p) (k : Nat) :
    (TokenStream.ofChars (1 + k) source.toList).diagnostics = [] ∧
      Grammar.Declarations
        (tokensBeforeEnd (TokenStream.ofChars (1 + k) source.toList).tokens)
        (p.relabel (.down k)) := by
  obtain ⟨hdiagnostics, -, -, -⟩ := Session.check_eq_ok_iff.mp h
  have hdown := TokenStream.ofPieces_down k (Piece.ofSource source.toList) 1
  have htokens : (TokenStream.ofChars (1 + k) source.toList).tokens =
      (TokenStream.ofSource source).tokens.map (Token.relabel (.down k)) :=
    congrArg TokenStream.tokens hdown
  refine ⟨?_, ?_⟩
  · rw [TokenStream.ofChars, hdown]
    exact List.map_eq_nil_iff.mpr hdiagnostics
  · rw [htokens, tokensBeforeEnd_relabel]
    exact Grammar.declarations_relabel h.declarations

/-- The programs of sources that are put one below the other, as one program. -/
def stacked : Nat → List String → List Program → Program
  | k, source :: sources, p :: programs =>
    p.relabel (.down k) ++ stacked (k + height source) sources programs
  | _, _, _ => []

theorem stacked_single (k : Nat) : stacked k [source] [p] = p.relabel (.down k) := by
  show p.relabel (.down k) ++ [] = p.relabel (.down k)
  rw [List.append_nil]

/-- What the grammar reads in joined sources. -/
theorem joined_declarations (h : List.Forall₂ Accepted sources programs) (k : Nat) :
    (TokenStream.ofChars (1 + k) (joined sources).toList).diagnostics = [] ∧
      Grammar.Declarations
        (tokensBeforeEnd (TokenStream.ofChars (1 + k) (joined sources).toList).tokens)
        (stacked k sources programs) := by
  induction h generalizing k with
  | nil =>
    rw [show (joined []).toList = [] from rfl, TokenStream.ofChars_nil]
    exact ⟨rfl, .nil⟩
  | @cons source p sources programs hfirst hrest ih =>
    obtain ⟨hdiagnostics, hdeclarations⟩ := hfirst.down k
    cases hrest with
    | nil =>
      rw [stacked_single]
      exact ⟨hdiagnostics, hdeclarations⟩
    | @cons next q sources programs hnext hrest =>
      obtain ⟨hdiagnostics', hdeclarations'⟩ := ih (k + height source)
      have hclosed : (TokenStream.ofChars (1 + k) source.toList).Closed := by
        rw [TokenStream.Closed, hdiagnostics]
        exact List.forall_mem_nil _
      obtain ⟨htokens, hwhole⟩ :=
        TokenStream.ofChars_newline (1 + k) (joined (next :: sources)).toList hclosed
      rw [← toList_joined_cons (List.cons_ne_nil _ _), Nat.add_assoc, Nat.add_assoc] at htokens hwhole
      rw [hwhole, hdiagnostics, htokens, tokensBeforeEnd_plain (TokenStream.plain_ofChars _ _),
        ← TokenStream.tokensBeforeEnd_ofChars, stacked]
      exact ⟨hdiagnostics', Grammar.declarations_append hdeclarations hdeclarations'⟩

theorem stacked_scopingFaults (h : List.Forall₂ Accepted sources programs) (k : Nat) :
    (stacked k sources programs).scopingFaults = [] := by
  induction h generalizing k with
  | nil => rfl
  | cons hfirst _ ih =>
    obtain ⟨-, -, -, hfaults⟩ := Session.check_eq_ok_iff.mp hfirst
    rw [stacked, Program.scopingFaults_append, ih, List.append_nil,
      Program.scopingFaults_relabel]
    exact hfaults

/-- A source without faults is accepted in every session, and read as the same program up
to ids. -/
theorem Session.check_of_declarations (session : Session)
    (hdiagnostics : (TokenStream.ofSource source).diagnostics = [])
    (hdeclarations :
      Grammar.Declarations (tokensBeforeEnd (TokenStream.ofSource source).tokens) p)
    (hfaults : p.scopingFaults = []) :
    ∃ q, (session.check source).1 = .ok q ∧ q.relabel .anonymous = p.relabel .anonymous := by
  obtain ⟨hread, hsame⟩ := Program.read_complete (n := session.nextId) hdeclarations
  have hfaults' := (Program.scopingFaults_relabel (r := .anonymous) _).mpr hfaults
  rw [← hsame, Program.scopingFaults_relabel] at hfaults'
  exact ⟨_, check_eq_ok_iff.mpr ⟨hdiagnostics, hread, rfl, hfaults'⟩, hsame⟩

theorem Accepted.check (h : Accepted source p) (session : Session) :
    ∃ q, (session.check source).1 = .ok q ∧ q.relabel .anonymous = p.relabel .anonymous := by
  obtain ⟨hdiagnostics, -, -, hfaults⟩ := Session.check_eq_ok_iff.mp h
  exact session.check_of_declarations hdiagnostics h.declarations hfaults

/-- Accepted sources are accepted when they are joined. -/
theorem Session.check_joined (session : Session) (h : List.Forall₂ Accepted sources programs) :
    ∃ q, (session.check (joined sources)).1 = .ok q ∧
      q.relabel .anonymous = (stacked 0 sources programs).relabel .anonymous := by
  obtain ⟨hdiagnostics, hdeclarations⟩ := joined_declarations h 0
  exact session.check_of_declarations hdiagnostics hdeclarations (stacked_scopingFaults h 0)

end Lox
