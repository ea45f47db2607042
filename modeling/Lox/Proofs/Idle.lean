/-
Steps that only parse, or whose source is faulty, do not show.

Such a step uses up ids, so all later references have other ids and the table of
distances other keys.  But a source is checked alike whatever ids it gets
(`Session.check_eq`), and evaluation sees names and not ids: a session with such steps
and one without them are tied to the same world.

* `Step.Idle` — the step only parses, or its source is faulty;
* `Session.take_idle` — an idle step prints nothing and leaves the machine as it is;
* `Session.idle_steps_invisible` — idle steps that are put in anywhere leave the answers
  to all other steps as they were.
-/
import Lox.Proofs.Joined.Sessions
import Lox.Proofs.Relabelling.Reading
import Lox.Proofs.Steps

namespace Lox

open Lexical

/-! ### Sources in different sessions -/

/-- The result of reading a source with new lines and ids. -/
def relabelRead (r : Relabelling) :
    Except (List Diagnostic) Program → Except (List Diagnostic) Program :=
  Except.map (Program.relabel r)

/-- A source on its own: what a new session makes of it. -/
def parsedAlone (source : String) : Except (List Diagnostic) Program :=
  ((Session.start (.ofLimit none)).parse source).1

/-- A source on its own: what a new session accepts it as, or what is wrong with it. -/
def checkedAlone (source : String) : Except (List Diagnostic) Program :=
  ((Session.start (.ofLimit none)).check source).1

namespace Session

variable {host : Host} {session session' : Session} {source : String}

theorem parse_up (m m' : Machine) (k n : Nat) (source : String) :
    ((⟨m, n + k⟩ : Session).parse source).1 =
      relabelRead (.up k) ((⟨m', n⟩ : Session).parse source).1 := by
  unfold parse
  dsimp only
  rw [Program.read_up]
  by_cases hnone : (TokenStream.ofSource source).diagnostics ++
      (Program.read n (TokenStream.ofSource source).tokens).diagnostics = []
  · rw [if_pos hnone, if_pos hnone]
    rfl
  · rw [if_neg hnone, if_neg hnone]
    rfl

/-- A source is parsed as in a new session, with ids from the next free one on. -/
theorem parse_eq (session : Session) (source : String) :
    (session.parse source).1 = relabelRead (.up session.nextId) (parsedAlone source) := by
  have h := parse_up session.machine (Machine.initial (.ofLimit none)) session.nextId 0 source
  rw [Nat.zero_add] at h
  exact h

/-- Likewise for the use of names in it. -/
theorem check_eq (session : Session) (source : String) :
    (session.check source).1 = relabelRead (.up session.nextId) (checkedAlone source) := by
  have hparse := session.parse_eq source
  unfold checkedAlone check
  dsimp only
  rw [hparse]
  unfold parsedAlone
  cases ((start (.ofLimit none)).parse source).1 with
  | error diagnostics => rfl
  | ok p => exact p.checked_ids _

theorem nextId_le_parse (session : Session) (source : String) :
    session.nextId ≤ (session.parse source).2.nextId :=
  (Program.read_numbered _ _).le

/-- What is read of a source is the same in all sessions but for the ids. -/
theorem anonymous_relabelRead_up (k : Nat) (result : Except (List Diagnostic) Program) :
    relabelRead .anonymous (relabelRead (.up k) result) = relabelRead .anonymous result := by
  cases result with
  | error diagnostics => rfl
  | ok p => exact congrArg Except.ok (p.relabel_relabel .anonymous)

end Session

/-! ### Idle steps -/

/-- The step only parses its source, or there is something wrong with it. -/
def Step.Idle : Step → Prop
  | .run _ source => ∃ diagnostics, checkedAlone source = .error diagnostics
  | .parse _ => True

namespace Session

variable {host : Host} {session session' : Session} {step : Step} {world : World}

theorem run_of_checkedAlone {source : String} {diagnostics : List Diagnostic} (fuel : Nat)
    (h : checkedAlone source = .error diagnostics) :
    session.run host fuel source =
      (⟨.empty, some (.faulty diagnostics)⟩, (session.check source).2) := by
  refine run_of_faults fuel ?_
  rw [check_eq, h]
  rfl

/-- An idle step only uses up ids. -/
theorem take_idle (host : Host) (h : step.Idle) (session : Session) :
    (session.take host step).1.output = .empty ∧
      (session.take host step).2.machine = session.machine ∧
      session.nextId ≤ (session.take host step).2.nextId := by
  cases step with
  | parse source => exact ⟨rfl, rfl, session.nextId_le_parse source⟩
  | run fuel source =>
    obtain ⟨diagnostics, hfaulty⟩ := h
    rw [take, run_of_checkedAlone fuel hfaulty]
    refine ⟨rfl, machine_check session source, ?_⟩
    rw [nextId_check]
    exact session.nextId_le_parse source

/-- A session stays tied to its world through an idle step. -/
theorem Corresponds.take_idle {r : Relabelling} (h : session.Corresponds r world)
    (hidle : step.Idle) : (session.take host step).2.Corresponds r world := by
  obtain ⟨l, w, hgrounded, hw⟩ := h
  obtain ⟨-, hmachine, hle⟩ := session.take_idle host hidle
  have hnext : (session.take host step).2 =
      { session with nextId := (session.take host step).2.nextId } := by
    rw [← hmachine]
  rw [hnext]
  exact ⟨_, w, hgrounded.renumber hle, hw⟩

end Session

/-- The answer up to the ids of its program. -/
def Answer.anonymous : Answer → Answer
  | ran outcome => ran outcome
  | parsed result => parsed (relabelRead .anonymous result)

namespace Session

variable {host : Host} {session session' : Session} {world : World}

/-- Two sessions that are tied to one world give the same answer to a step, up to ids,
and are tied to one world again. -/
theorem Corresponds.take (host : Host) (h : session.Corresponds .anonymous world)
    (h' : session'.Corresponds .anonymous world) (step : Step) :
    (session.take host step).1.anonymous = (session'.take host step).1.anonymous ∧
      ∃ world', (session.take host step).2.Corresponds .anonymous world' ∧
        (session'.take host step).2.Corresponds .anonymous world' := by
  cases step with
  | parse source =>
    have hsame : relabelRead .anonymous (session.parse source).1 =
        relabelRead .anonymous (session'.parse source).1 := by
      rw [parse_eq, parse_eq session', anonymous_relabelRead_up, anonymous_relabelRead_up]
    have hidle : (Step.parse source).Idle := trivial
    exact ⟨congrArg Answer.parsed hsame, world, h.take_idle hidle, h'.take_idle hidle⟩
  | run fuel source =>
    cases halone : checkedAlone source with
    | error diagnostics =>
      have hidle : (Step.run fuel source).Idle := ⟨diagnostics, halone⟩
      refine ⟨?_, world, h.take_idle hidle, h'.take_idle hidle⟩
      rw [Session.take, Session.take, run_of_checkedAlone fuel halone,
        run_of_checkedAlone fuel halone]
    | ok p =>
      have hchecked : ∀ session : Session,
          (session.check source).1 = .ok (p.relabel (.up session.nextId)) := by
        intro session
        rw [check_eq, halone]
        rfl
      have hsame : ∀ k, (p.relabel (.up k)).relabel .anonymous = p.relabel .anonymous :=
        fun k => p.relabel_relabel .anonymous
      obtain ⟨houtcome, hnext⟩ := h.run (hchecked session) (hsame _) host fuel
      obtain ⟨houtcome', hnext'⟩ := h'.run (hchecked session') (hsame _) host fuel
      exact ⟨congrArg Answer.ran (houtcome.trans houtcome'.symm), _, hnext, hnext'⟩

theorem corresponds_start (sink : Sink) :
    (start sink).Corresponds .anonymous (.initial sink) :=
  ⟨_, _, grounded_start sink, rfl⟩

end Session

/-! ### Main statement -/

/-- The items whose marks are `true`. -/
def kept {α : Type} (marks : List Bool) (items : List α) : List α :=
  ((marks.zip items).filter Prod.fst).map Prod.snd

/-- The program that was read, as it is listed statement by statement. -/
def Answer.listed : Answer → List String
  | parsed (.ok p) => p.map Stmt.text
  | _ => []

theorem Answer.listed_anonymous (answer : Answer) : answer.anonymous.listed = answer.listed := by
  match answer with
  | ran outcome => rfl
  | parsed (.ok p) => exact p.texts_relabel
  | parsed (.error diagnostics) => rfl

namespace Session

variable {host : Host} {session session' : Session} {world : World}

theorem Corresponds.answers (host : Host) (h : session.Corresponds .anonymous world)
    (h' : session'.Corresponds .anonymous world) {marks : List Bool} {steps : List Step}
    (hidle : ∀ entry ∈ marks.zip steps, entry.1 = false → entry.2.Idle) :
    (kept marks (session.answers host steps)).map Answer.anonymous =
      (session'.answers host (kept marks steps)).map Answer.anonymous := by
  induction steps generalizing session session' world marks with
  | nil =>
    cases marks <;> rfl
  | cons step steps ih =>
    cases marks with
    | nil => rfl
    | cons mark marks =>
      obtain ⟨hfirst, hrest⟩ := List.forall_mem_cons.mp hidle
      cases mark with
      | false => exact ih (h.take_idle (hfirst rfl)) h' hrest
      | true =>
        obtain ⟨hsame, world', hnext, hnext'⟩ := h.take host h' step
        exact congrArg₂ List.cons hsame (ih hnext hnext' hrest)

/-- A source that is rejected in some session is rejected on its own. -/
theorem checkedAlone_of_check {source : String} {diagnostics : List Diagnostic}
    (h : (session.check source).1 = .error diagnostics) :
    checkedAlone source = .error diagnostics := by
  rw [check_eq] at h
  cases halone : checkedAlone source with
  | ok p =>
    rw [halone] at h
    cases h
  | error found =>
    rw [halone] at h
    exact h

/-- Steps that only parse, and runs of faulty sources, are put in anywhere: they are the
steps whose marks are `false`.  The other steps have the same answers as without them,
that is the same output and the same failure, or the same diagnostics, or the same
program up to its ids, which is listed alike.  In every session an idle step prints
nothing and leaves the machine as it is; and a run whose source is rejected in any session
is an idle step, which only reports what is wrong with the source. -/
theorem idle_steps_invisible (host : Host) (sink : Sink) (marks : List Bool) (steps : List Step)
    (hidle : ∀ entry ∈ marks.zip steps, entry.1 = false → entry.2.Idle) :
    (kept marks ((start sink).answers host steps)).map Answer.anonymous =
        ((start sink).answers host (kept marks steps)).map Answer.anonymous ∧
      (kept marks ((start sink).answers host steps)).map Answer.listed =
        ((start sink).answers host (kept marks steps)).map Answer.listed ∧
      (∀ (session : Session) step, step.Idle → (session.take host step).1.output = .empty ∧
        (session.take host step).2.machine = session.machine) ∧
      ∀ (session : Session) fuel source diagnostics,
        (session.check source).1 = .error diagnostics → (Step.run fuel source).Idle ∧
          (session.run host fuel source).1 = ⟨.empty, some (.faulty diagnostics)⟩ := by
  have hstart := corresponds_start sink
  have hsame := hstart.answers host hstart hidle
  have hlisted := congrArg (List.map Answer.listed) hsame
  have hforget : Answer.listed ∘ Answer.anonymous = Answer.listed :=
    funext Answer.listed_anonymous
  rw [List.map_map, List.map_map, hforget] at hlisted
  refine ⟨hsame, hlisted, fun session step hidle => ?_, fun session fuel source diagnostics h => ?_⟩
  · obtain ⟨houtput, hmachine, -⟩ := session.take_idle host hidle
    exact ⟨houtput, hmachine⟩
  · refine ⟨⟨diagnostics, checkedAlone_of_check h⟩, ?_⟩
    rw [run_of_faults fuel h]

/-- A closure that is called after a source was parsed and another one was rejected. -/
theorem idle_steps_invisible_closure :
    let host : Host := ⟨some maxCallDepth, fun _ => 0⟩
    let session := start (.ofLimit none)
    let marks := [true, false, false, true]
    let steps : List Step :=
      [.run 10 "fun f() {nil();}", .parse "a;", .run 10 "return a;", .run 10 "f();"]
    (∀ entry ∈ marks.zip steps, entry.1 = false → entry.2.Idle) ∧
      kept marks steps = [.run 10 "fun f() {nil();}", .run 10 "f();"] ∧
      (kept marks (session.answers host steps)).map Answer.anonymous =
        (session.answers host (kept marks steps)).map Answer.anonymous := by
  intro host session marks steps
  have hfaulty : checkedAlone "return a;" =
      .error [⟨1, .token "return", "Can't return from top-level code."⟩] := by
    unfold checkedAlone
    cbv
  have hidle : ∀ entry ∈ marks.zip steps, entry.1 = false → entry.2.Idle := by
    simp only [marks, steps, List.zip_cons_cons, List.zip_nil_right, List.forall_mem_cons]
    exact ⟨Bool.noConfusion, fun _ => trivial, fun _ => ⟨_, hfaulty⟩, Bool.noConfusion,
      List.forall_mem_nil _⟩
  exact ⟨hidle, rfl, (idle_steps_invisible host (.ofLimit none) marks steps hidle).1⟩

end Session

end Lox
