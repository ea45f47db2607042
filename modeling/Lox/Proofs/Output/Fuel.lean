/-
Fuel only cuts runs short.

With more fuel a run that has ended does the same, and one that ran out of fuel goes on
from there: what it had printed is the beginning of what is printed then.  So a run that
never ends is known by what it prints with more and more fuel.

* `Exec.Continues` — from a machine the second action does what the first one did, or it
  goes on where that ran out of fuel;
* `Exec.CutShort` — it does so from every machine, and a limited sink cuts it off;
* `Exec.clips_runProgram`, `Exec.continues_runProgram` — programs;
* `Session.run_moreFuel` — likewise for the runs of a session.
-/
import Lox.Proofs.Lockstep.Congruence
import Lox.Proofs.Output.Clipped

namespace Lox

namespace Exec

variable {α β : Type} {host : Host} {m m₁ : Machine}

/-- Either the actions do the same, or the first one runs out of fuel after it has
printed the beginning of what the second one prints. -/
def Continues (x y : Exec α) (m : Machine) : Prop :=
  x m = y m ∨ ∃ m', x m = .error .outOfFuel m' ∧
    ∃ rest, (Machine.left (y m)).sink.written = m'.sink.written ++ rest

theorem Continues.bind {x y : Exec α} {f g : α → Exec β} (h : Continues x y m)
    (hfg : ∀ a m₁, Continues (f a) (g a) m₁) (hg : ∀ a, Extends (g a)) :
    Continues (x >>= f) (y >>= g) m := by
  rcases h with hsame | ⟨m', hcut, rest, hrest⟩
  · cases hy : y m with
    | ok a m₁ =>
      unfold Continues
      rw [bind_ok (hsame.trans hy), bind_ok hy]
      exact hfg a m₁
    | error abort m₁ =>
      refine .inl ?_
      rw [bind_error (hsame.trans hy), bind_error hy]
  · refine .inr ⟨m', bind_error hcut, ?_⟩
    cases hy : y m with
    | ok a m₁ =>
      -- the second action goes on, and what it prints comes later
      rw [hy] at hrest
      obtain ⟨more, hmore⟩ := hg a m₁
      refine ⟨rest ++ more, ?_⟩
      rw [bind_ok hy, hmore, ← ByteArray.append_assoc]
      exact congrArg (· ++ more) hrest
    | error abort m₁ =>
      rw [hy] at hrest
      refine ⟨rest, ?_⟩
      rw [bind_error hy]
      exact hrest

/-- The machine is put into another place before both actions and back after them. -/
theorem Continues.moved {x y x' y' : Exec α} {change : Machine → Machine}
    (h : Continues x y m₁) (hx : x' m = leaving change (x m₁)) (hy : y' m = leaving change (y m₁))
    (hkept : ∀ m', (change m').sink = m'.sink) : Continues x' y' m := by
  rcases h with hsame | ⟨m', hcut, rest, hrest⟩
  · refine .inl ?_
    rw [hx, hy, hsame]
  · refine .inr ⟨change m', ?_, rest, ?_⟩
    · rw [hx, hcut]
      rfl
    · rw [hy, left_leaving, hkept, hkept, hrest]

/-- From every machine the second action goes on after the first one, and a limited sink
only cuts off what it prints. -/
structure CutShort (x y : Exec α) : Prop where
  continues : ∀ m, Continues x y m
  clips : Clips y

theorem CutShort.refl {x : Exec α} (hx : Clips x) : CutShort x x :=
  ⟨fun _ => .inl rfl, hx⟩

/-- Where there is no fuel at all, every action goes on. -/
theorem cutShort_throw {y : Exec α} (hy : Clips y) : CutShort (throw .outOfFuel) y :=
  ⟨fun m => .inr ⟨m, rfl, hy.extends m⟩, hy⟩

theorem CutShort.bind {x y : Exec α} {f g : α → Exec β} (h : CutShort x y)
    (hfg : ∀ a, CutShort (f a) (g a)) : CutShort (x >>= f) (y >>= g) :=
  ⟨fun m => (h.continues m).bind (fun a => (hfg a).continues) fun a => (hfg a).clips.extends,
    h.clips.bind fun a => (hfg a).clips⟩

theorem CutShort.inScope {x y : Exec α} (h : CutShort x y) (scope : ScopeAddress) :
    CutShort (inScope scope x) (inScope scope y) :=
  ⟨fun m => (h.continues { m with scope := scope }).moved (inScope_eq scope x m)
    (inScope_eq scope y m) fun _ => rfl, h.clips.inScope scope⟩

theorem CutShort.frame {x y : Exec α} (h : CutShort x y) (line : Nat) :
    CutShort (frame host line x) (frame host line y) := by
  refine ⟨fun m => ?_, h.clips.frame line⟩
  cases hfull : host.maxDepth.any (· ≤ m.depth) with
  | true =>
    refine .inl ?_
    rw [frame_of_full line x hfull, frame_of_full line y hfull]
  | false =>
    exact (h.continues { m with depth := m.depth + 1 }).moved (frame_of_not_full line x hfull)
      (frame_of_not_full line y hfull) fun _ => rfl

/-! ### Evaluation -/

theorem congruence_cutShort (host : Host) :
    Congruence host host idleWatch idleWatch fun _ _ x y => CutShort x y where
  clock := rfl
  watched _ := .refl (quiet_pure ()).clips
  quiet hx := .refl hx.clips
  print value := .refl (clips_print value)
  bind hx hf := hx.bind hf
  inScope scope hx := hx.inScope scope
  enter call hx := ((CutShort.refl (quiet_pure ()).clips).bind fun _ => hx).frame call.line

/-- Evaluation goes on from where it ran out of fuel, since it is cut off in the right way
itself: it is compared with itself first. -/
theorem slack_cutShort (host : Host) (extra : Nat) :
    Slack host idleWatch (fun _ _ x y => CutShort x y) extra := by
  have c := congruence_cutShort host
  have heval := fun fuel => (c.evaluation c.noSlack fuel).1
  have hexec := fun fuel => (c.evaluation c.noSlack fuel).2
  refine ⟨fun calls e => ?_, fun calls s => ?_, fun fuel calls condition body => ?_⟩
  · exact cutShort_throw (heval extra calls e).clips
  · exact cutShort_throw (hexec extra calls s).clips
  · have hloop := c.repeatWhile calls extra (heval fuel calls condition)
      (hexec fuel calls body) (c.noSlack.loop fuel calls condition body)
    exact cutShort_throw hloop.clips

theorem cutShort_runProgram (host : Host) (fuel extra : Nat) (p : Program) :
    CutShort (runProgram host fuel p) (runProgram host (fuel + extra) p) := by
  have h : CutShort (runIn host idleWatch fuel p) (runIn host idleWatch (fuel + extra) p) :=
    (congruence_cutShort host).runIn (slack_cutShort host extra) fuel p
  rwa [runIn_unwatched, runIn_unwatched] at h

theorem clips_runProgram (host : Host) (fuel : Nat) (p : Program) :
    Clips (runProgram host fuel p) :=
  (cutShort_runProgram host fuel 0 p).clips

theorem continues_runProgram (host : Host) {fuel more : Nat} (h : fuel ≤ more) (p : Program)
    (m : Machine) : Continues (runProgram host fuel p) (runProgram host more p) m := by
  obtain ⟨extra, rfl⟩ := Nat.exists_eq_add_of_le h
  exact (cutShort_runProgram host fuel extra p).continues m

end Exec

namespace Session

variable {host : Host} {fuel more : Nat}

/-- A run that has ended does the same with more fuel.  What a run prints is the
beginning of what it prints with more fuel. -/
theorem run_moreFuel (host : Host) (session : Session) (source : String) (h : fuel ≤ more) :
    ((session.run host fuel source).1.failure ≠ some (.aborted .outOfFuel) →
      session.run host more source = session.run host fuel source) ∧
    ∃ rest, (session.run host more source).1.output =
      (session.run host fuel source).1.output ++ rest := by
  cases hchecked : (session.check source).1 with
  | error diagnostics =>
    rw [run_of_faults fuel hchecked, run_of_faults more hchecked]
    exact ⟨fun _ => rfl, .empty, ByteArray.append_empty.symm⟩
  | ok p =>
    rw [run_of_check fuel hchecked, run_of_check more hchecked, Machine.run_eq, Machine.run_eq]
    rcases Exec.continues_runProgram host h p (session.machine.prepared p) with
      hsame | ⟨m', hcut, rest, hrest⟩
    · rw [hsame]
      exact ⟨fun _ => rfl, .empty, ByteArray.append_empty.symm⟩
    · rw [hcut]
      refine ⟨fun hended => absurd rfl hended, rest, ?_⟩
      cases hresult : Exec.runProgram host more p (session.machine.prepared p) with
      | ok _ final =>
        rw [hresult] at hrest
        exact hrest
      | error abort final =>
        rw [hresult] at hrest
        exact hrest

end Session

end Lox
