/-
Sessions as lists of steps.

A step runs a source or only parses it, and the session gives an answer to it.

* `Session.answers`, `Session.after` — what a session says to steps that are taken one
  after the other, and the session that is left then;
* `Session.readings`, `Session.programs` — the programs that are read on the way, and
  those of them that are run;
* `Session.reachable_iff` — the sessions that can be reached are those after steps.
-/
import Lox.Proofs.Reachable

namespace Lox

/-- What a session is asked to do with a source. -/
inductive Step where
  | run (fuel : Nat) (source : String)
  | parse (source : String)

/-- The source of a step. -/
def Step.source : Step → String
  | run _ source => source
  | parse source => source

/-- What a session says to a step. -/
inductive Answer where
  | ran (outcome : Outcome)
  | parsed (result : Except (List Diagnostic) Program)

/-- What a step printed. -/
def Answer.output : Answer → ByteArray
  | ran outcome => outcome.output
  | parsed _ => .empty

namespace Session

variable (host : Host)

/-- Takes a step. -/
def take (session : Session) : Step → Answer × Session
  | .run fuel source => (.ran (session.run host fuel source).1, (session.run host fuel source).2)
  | .parse source => (.parsed (session.parse source).1, (session.parse source).2)

/-- The answers to steps that are taken one after the other. -/
def answers (session : Session) : List Step → List Answer
  | [] => []
  | step :: steps => (session.take host step).1 :: (session.take host step).2.answers steps

/-- The session after steps that are taken one after the other. -/
def after (session : Session) : List Step → Session
  | [] => session
  | step :: steps => (session.take host step).2.after steps

/-- The program that a step runs, if its source is accepted. -/
def accepted? (session : Session) : Step → Option Program
  | .run _ source => (session.check source).1.toOption
  | .parse _ => none

/-- The programs that are run by steps that are taken one after the other. -/
def programs (session : Session) : List Step → List Program
  | [] => []
  | step :: steps =>
    (session.accepted? step).toList ++ (session.take host step).2.programs steps

/-- What a step reads of its source, whether there are faults in it or not. -/
def reading (session : Session) (step : Step) : Reading :=
  Program.read session.nextId (TokenStream.ofSource step.source).tokens

/-- What is read by steps that are taken one after the other. -/
def readings (session : Session) : List Step → List Reading
  | [] => []
  | step :: steps => session.reading step :: (session.take host step).2.readings steps

variable {host} {session : Session}

theorem after_append (steps later : List Step) :
    session.after host (steps ++ later) = (session.after host steps).after host later := by
  induction steps generalizing session with
  | nil => rfl
  | cons step steps ih => exact ih

theorem Reachable.take (h : Reachable host session) (step : Step) :
    Reachable host (session.take host step).2 := by
  cases step with
  | run fuel source => exact h.run fuel source
  | parse source => exact h.parse source

theorem Reachable.after (h : Reachable host session) (steps : List Step) :
    Reachable host (session.after host steps) := by
  induction steps generalizing session with
  | nil => exact h
  | cons step steps ih => exact ih (h.take step)

/-- What can be reached is reached by steps. -/
theorem reachable_iff :
    Reachable host session ↔ ∃ sink steps, session = (start sink).after host steps := by
  constructor
  · intro h
    induction h with
    | start sink => exact ⟨sink, [], rfl⟩
    | parse _ source ih =>
      obtain ⟨sink, steps, rfl⟩ := ih
      refine ⟨sink, steps ++ [.parse source], ?_⟩
      rw [after_append]
      rfl
    | run _ fuel source ih =>
      obtain ⟨sink, steps, rfl⟩ := ih
      refine ⟨sink, steps ++ [.run fuel source], ?_⟩
      rw [after_append]
      rfl
  · rintro ⟨sink, steps, rfl⟩
    exact (Reachable.start sink).after steps

end Session

end Lox
