/-
Sessions whose sink accepts so many bytes only.

* `Session.withRoom` — the session with a limited sink in the place of its unlimited one;
* `Session.take_withRoom` — a step of it does the same as long as there is room, and
  otherwise stops at the first byte that is refused;
* `Session.take_full` — after that nothing is printed any more;
* `Session.output_clipped` — so the output under a limit is the beginning of the
  unlimited output.
-/
import Lox.Proofs.Output.Fuel
import Lox.Proofs.Steps

namespace Lox

/-- What was printed in these answers, one after the other. -/
def Answer.printed : List Answer → ByteArray
  | [] => .empty
  | answer :: answers => answer.output ++ printed answers

namespace Session

variable {host : Host} {session : Session} {step : Step} {steps : List Step} {room : Nat}

/-- The session with a sink that accepts so many bytes more. -/
def withRoom (session : Session) (room : Nat) : Session :=
  { session with machine := session.machine.withRoom room }

/-! ### Steps -/

/-- What a source is read as has nothing to do with the sink. -/
theorem check_withRoom (session : Session) (room : Nat) (source : String) :
    (session.withRoom room).check source =
      ((session.check source).1, (session.check source).2.withRoom room) := rfl

/-- A result that only differs in the room that is left. -/
theorem outcome_leaving (result : EStateM.Result Abort Machine Unit) (room : Nat) :
    Machine.outcome (Exec.leaving (·.withRoom room) result) =
      ((Machine.outcome result).1, (Machine.outcome result).2.withRoom room) := by
  cases result <;> rfl

/-- A run prints some bytes on an unlimited sink.  If there is room for them it does the
same on a limited one, and otherwise as many of them are printed as there is room for. -/
theorem run_withRoom (host : Host) (fuel : Nat) (source : String) (room : Nat)
    (hroom : session.machine.sink.room = none) :
    (session.run host fuel source).2.machine.sink.room = none ∧
    ((session.run host fuel source).1.output.size ≤ room →
      (session.withRoom room).run host fuel source = ((session.run host fuel source).1,
        (session.run host fuel source).2.withRoom
          (room - (session.run host fuel source).1.output.size))) ∧
    (room < (session.run host fuel source).1.output.size →
      ((session.withRoom room).run host fuel source).1 =
          ⟨(session.run host fuel source).1.output.extract 0 room, some (.aborted .sinkFull)⟩ ∧
        ((session.withRoom room).run host fuel source).2.machine.sink.room = some 0) := by
  have hcheck := check_withRoom session room source
  cases hchecked : (session.check source).1 with
  | error diagnostics =>
    rw [hchecked] at hcheck
    rw [run_of_faults fuel hchecked, run_of_faults fuel (congrArg Prod.fst hcheck), hcheck]
    refine ⟨?_, fun _ => rfl, fun hlt => absurd hlt (Nat.not_lt_zero _)⟩
    rw [machine_check]
    exact hroom
  | ok p =>
    rw [hchecked] at hcheck
    rw [run_of_check fuel hchecked, run_of_check fuel (congrArg Prod.fst hcheck), hcheck,
      Machine.run_eq, Machine.run_eq]
    obtain ⟨bytes, hbytes⟩ := Exec.clips_runProgram host fuel p (session.machine.prepared p) hroom
    have hprepared : (session.withRoom room).machine.prepared p =
      (session.machine.prepared p).withRoom room := rfl
    rw [hprepared]
    -- on an unlimited sink the output is all that was printed
    have houtcome : ∀ result : EStateM.Result Abort Machine Unit,
        (Machine.outcome result).1.output = (Machine.left result).sink.written ∧
          (Machine.outcome result).2 = Machine.left result := by
      rintro (_ | _) <;> exact ⟨rfl, rfl⟩
    obtain ⟨houtput, hleft⟩ :=
      houtcome (Exec.runProgram host fuel p (session.machine.prepared p))
    have hwritten : (Machine.outcome
        (Exec.runProgram host fuel p (session.machine.prepared p))).1.output = bytes := by
      rw [houtput, hbytes.unlimited]
      exact ByteArray.empty_append
    dsimp only
    rw [hwritten, hleft, hbytes.unlimited]
    refine ⟨rfl, fun hle => ?_, fun hlt => ?_⟩
    · rw [hbytes.fits room hle, outcome_leaving, hleft]
      rfl
    · obtain ⟨m', hfull, hsink⟩ := hbytes.clipped room hlt
      rw [hfull]
      refine ⟨?_, congrArg Sink.room hsink⟩
      have hout : m'.sink.written = bytes.extract 0 room := by
        rw [hsink]
        exact ByteArray.empty_append
      rw [← hout]
      rfl

theorem take_withRoom (host : Host) (step : Step) (room : Nat)
    (hroom : session.machine.sink.room = none) :
    (session.take host step).2.machine.sink.room = none ∧
    ((session.take host step).1.output.size ≤ room →
      (session.withRoom room).take host step = ((session.take host step).1,
        (session.take host step).2.withRoom
          (room - (session.take host step).1.output.size))) ∧
    (room < (session.take host step).1.output.size →
      ((session.withRoom room).take host step).1 =
          .ran ⟨(session.take host step).1.output.extract 0 room, some (.aborted .sinkFull)⟩ ∧
        ((session.withRoom room).take host step).2.machine.sink.room = some 0) := by
  cases step with
  | parse source => exact ⟨hroom, fun _ => rfl, fun hlt => absurd hlt (Nat.not_lt_zero _)⟩
  | run fuel source =>
    obtain ⟨hnone, hfits, hclipped⟩ := run_withRoom host fuel source room hroom
    refine ⟨hnone, fun hle => ?_, fun hlt => ?_⟩
    · exact congrArg (fun ran => (Answer.ran ran.1, ran.2)) (hfits hle)
    · obtain ⟨hanswer, hfull⟩ := hclipped hlt
      exact ⟨congrArg Answer.ran hanswer, hfull⟩

/-- Where there is no room left nothing is printed. -/
theorem take_full (host : Host) (step : Step) (hfull : session.machine.sink.room = some 0) :
    (session.take host step).1.output = .empty ∧
      (session.take host step).2.machine.sink.room = some 0 := by
  -- the session is one with an unlimited sink that was given no room
  have key : ∀ free : Session, free.machine.sink.room = none →
      ((free.withRoom 0).take host step).1.output = .empty ∧
        ((free.withRoom 0).take host step).2.machine.sink.room = some 0 := by
    intro free hnone
    obtain ⟨-, hfits, hclipped⟩ := take_withRoom host step 0 hnone
    by_cases hle : (free.take host step).1.output.size ≤ 0
    · rw [hfits hle]
      exact ⟨ByteArray.size_eq_zero_iff.mp (Nat.le_zero.mp hle), congrArg some (Nat.zero_sub _)⟩
    · obtain ⟨hanswer, hstill⟩ := hclipped (by omega)
      rw [hanswer]
      exact ⟨ByteArray.extract_same, hstill⟩
  have hsession := key { session with machine := session.machine.unlimited } rfl
  rwa [withRoom, Machine.withRoom_unlimited hfull] at hsession

theorem answers_full (host : Host) (steps : List Step)
    (hfull : session.machine.sink.room = some 0) :
    ∀ answer ∈ session.answers host steps, answer.output = .empty := by
  induction steps generalizing session with
  | nil => exact List.forall_mem_nil _
  | cons step steps ih =>
    obtain ⟨houtput, hnext⟩ := take_full host step hfull
    exact List.forall_mem_cons.mpr ⟨houtput, ih hnext⟩

/-! ### Answers -/

theorem printed_of_empty {answers : List Answer}
    (h : ∀ answer ∈ answers, answer.output = .empty) : Answer.printed answers = .empty := by
  induction answers with
  | nil => rfl
  | cons answer answers ih =>
    obtain ⟨hfirst, hrest⟩ := List.forall_mem_cons.mp h
    rw [Answer.printed, hfirst, ih hrest, ByteArray.append_empty]

theorem printed_withRoom (host : Host) (steps : List Step)
    (hroom : session.machine.sink.room = none) :
    Answer.printed ((session.withRoom room).answers host steps) =
      (Answer.printed (session.answers host steps)).extract 0 room := by
  induction steps generalizing session room with
  | nil => exact (extract_whole (Nat.zero_le room)).symm
  | cons step steps ih =>
    obtain ⟨hnone, hfits, hclipped⟩ := take_withRoom host step room hroom
    by_cases hle : (session.take host step).1.output.size ≤ room
    -- the rest of the session has the rest of the room
    · rw [answers, answers, Answer.printed, Answer.printed, hfits hle, extract_append_of_le hle,
        ih hnone]
    · have hlt : room < (session.take host step).1.output.size := by omega
      -- the sink is full from here on, so no later step adds anything
      obtain ⟨hanswer, hfull⟩ := hclipped hlt
      rw [answers, answers, Answer.printed, Answer.printed, hanswer,
        printed_of_empty (answers_full host steps hfull), ByteArray.append_empty,
        extract_append_of_lt hlt]
      rfl

/-- The answers are the same as long as there is room for all that was printed. -/
theorem take_answers_withRoom (host : Host) (steps : List Step) (n : Nat)
    (hroom : session.machine.sink.room = none)
    (hle : (Answer.printed ((session.answers host steps).take n)).size ≤ room) :
    ((session.withRoom room).answers host steps).take n = (session.answers host steps).take n := by
  induction steps generalizing session room n with
  | nil => rfl
  | cons step steps ih =>
    cases n with
    | zero => rfl
    | succ n =>
      obtain ⟨hnone, hfits, -⟩ := take_withRoom host step room hroom
      rw [answers, List.take_succ_cons, Answer.printed, ByteArray.size_append] at hle
      rw [answers, answers, List.take_succ_cons, List.take_succ_cons, hfits (by omega),
        ih n hnone (by omega)]

/-- The answer to the step that would print more than there is room for. -/
theorem answer_clipped (host : Host) (steps : List Step) (n : Nat) {answer : Answer}
    (hroom : session.machine.sink.room = none)
    (hanswer : (session.answers host steps)[n]? = some answer)
    (hle : (Answer.printed ((session.answers host steps).take n)).size ≤ room)
    (hlt : room < (Answer.printed ((session.answers host steps).take (n + 1))).size) :
    ((session.withRoom room).answers host steps)[n]? = some (.ran
        ⟨answer.output.extract 0
            (room - (Answer.printed ((session.answers host steps).take n)).size),
          some (.aborted .sinkFull)⟩) ∧
      ∀ later ∈ ((session.withRoom room).answers host steps).drop (n + 1),
        later.output = .empty := by
  induction steps generalizing session room n with
  | nil => cases hanswer
  | cons step steps ih =>
    obtain ⟨hnone, hfits, hclipped⟩ := take_withRoom host step room hroom
    have hsize : ∀ n, (Answer.printed ((session.answers host (step :: steps)).take (n + 1))).size =
        (session.take host step).1.output.size + (Answer.printed
          (((session.take host step).2.answers host steps).take n)).size := fun n =>
      ByteArray.size_append
    cases n with
    | zero =>
      cases hanswer
      rw [hsize] at hlt
      obtain ⟨hfirst, hfull⟩ := hclipped hlt
      exact ⟨congrArg some hfirst, answers_full host steps hfull⟩
    | succ n =>
      rw [hsize] at hle hlt
      have hrest : (Answer.printed
          (((session.take host step).2.answers host steps).take n)).size ≤
            room - (session.take host step).1.output.size := by omega
      have hnext := ih n hnone hanswer hrest (by omega)
      rw [answers, hfits (by omega), hsize, ← Nat.sub_sub]
      exact hnext

/-- The output under a limit is the beginning of the unlimited output.  Sources are run one
after the other in one session whose sink accepts so many bytes, and in one whose sink
accepts everything.  All steps up to the one that exceeds the limit are answered alike.
That step prints the bytes up to the limit and fails because the sink is full, whatever
becomes of it on the unlimited sink; after it nothing is printed.  With more fuel a run
that has ended does the same, and one that has not ended prints more of the same. -/
theorem output_clipped (host : Host) (limit : Nat) (steps : List Step) :
    let free := (start (.ofLimit none)).answers host steps
    let limited := (start (.ofLimit (some limit))).answers host steps
    Answer.printed limited = (Answer.printed free).extract 0 limit ∧
      (∀ n, (Answer.printed (free.take n)).size ≤ limit → limited.take n = free.take n) ∧
      (∀ n answer, free[n]? = some answer → (Answer.printed (free.take n)).size ≤ limit →
        limit < (Answer.printed (free.take (n + 1))).size →
          limited[n]? = some (.ran
              ⟨answer.output.extract 0 (limit - (Answer.printed (free.take n)).size),
                some (.aborted .sinkFull)⟩) ∧
            ∀ later ∈ limited.drop (n + 1), later.output = .empty) ∧
      ∀ (session : Session) source fuel more, fuel ≤ more →
        ((session.run host fuel source).1.failure ≠ some (.aborted .outOfFuel) →
          session.run host more source = session.run host fuel source) ∧
        ∃ rest, (session.run host more source).1.output =
          (session.run host fuel source).1.output ++ rest := by
  intro free limited
  have hroom : (start (.ofLimit none)).machine.sink.room = none := rfl
  have hlimited : limited = ((start (.ofLimit none)).withRoom limit).answers host steps := rfl
  rw [hlimited]
  refine ⟨printed_withRoom host steps hroom, fun n hle => ?_, fun n answer hanswer hle hlt => ?_,
    fun session source fuel more h => run_moreFuel host session source h⟩
  · exact take_answers_withRoom host steps n hroom hle
  · exact answer_clipped host steps n hroom hanswer hle hlt

/-- Six bytes are accepted.  The second source would print up to the ninth one and then
fail on its own. -/
theorem output_clipped_at_six :
    let host : Host := ⟨some maxCallDepth, fun _ => 0⟩
    let steps : List Step :=
      [.run 10 "print nil;", .run 10 "print true; nil();", .run 10 "print nil;"]
    let free := (start (.ofLimit none)).answers host steps
    let limited := (start (.ofLimit (some 6))).answers host steps
    free[1]?.map Answer.output = some "true\n".toUTF8 ∧
      (Answer.printed (free.take 1)).size ≤ 6 ∧ 6 < (Answer.printed (free.take 2)).size ∧
      limited.take 1 = free.take 1 ∧
      limited[1]? = some (.ran ⟨"true\n".toUTF8.extract 0
        (6 - (Answer.printed (free.take 1)).size), some (.aborted .sinkFull)⟩) ∧
      ∀ later ∈ limited.drop 2, later.output = .empty := by
  intro host steps free limited
  have hprinted : free[1]?.map Answer.output = some "true\n".toUTF8 := by decide +kernel
  have hle : (Answer.printed (free.take 1)).size ≤ 6 := by decide +kernel
  have hlt : 6 < (Answer.printed (free.take 2)).size := by decide +kernel
  obtain ⟨answer, hanswer, houtput⟩ := Option.map_eq_some_iff.mp hprinted
  obtain ⟨-, hsame, hclipped, -⟩ := output_clipped host 6 steps
  obtain ⟨hfull, hlater⟩ := hclipped 1 answer hanswer hle hlt
  rw [houtput] at hfull
  exact ⟨hprinted, hle, hlt, hsame 1 hle, hfull, hlater⟩

end Session

end Lox
