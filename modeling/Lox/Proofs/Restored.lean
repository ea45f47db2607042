/-
However evaluation ends, it puts the current scope and the depth of calls back.

An error may leave the evaluator from within any number of blocks, loops and calls.
All of them are made of few actions, so it is enough to look at these: most of them stay
where they are, and two move the machine to another place and back, `Exec.inScope` and
`Exec.frame`.

* `Exec.Restores` — an action leaves the machine in the place where it found it;
* `Exec.restores_eval`, `Exec.restores_exec` — evaluation does;
* `Exec.frames_eq` — which of several calls within one another is refused;
* `Session.place_restored` — so every step of a session starts among the global
  variables, with no call active;
* `Session.ReachableWrapped.place` — also when ids came round again.
-/
import Lox.Proofs.Lockstep.Congruence
import Lox.Proofs.Steps

namespace Lox

/-- Where a machine is: its current scope and the number of active calls. -/
def Machine.place (machine : Machine) : ScopeAddress × Nat :=
  (machine.scope, machine.depth)

namespace Exec

variable {α β : Type} {host : Host}

/-- The action leaves every machine in its place. -/
def Restores (x : Exec α) : Prop :=
  ∀ m, (Machine.left (x m)).place = m.place

/-! ### Actions -/

theorem Quiet.restores {x : Exec α} (hx : Quiet x) : Restores x :=
  fun m => Prod.ext (hx.scope m) (hx.depth m)

theorem restores_print (value : Datum) : Restores (print value) := by
  intro m
  unfold print
  dsimp only
  split <;> rfl

theorem Restores.bind {x : Exec α} {f : α → Exec β} (hx : Restores x)
    (hf : ∀ a, Restores (f a)) : Restores (x >>= f) := by
  intro m
  have hfirst := hx m
  cases hresult : x m with
  | ok a middle =>
    rw [hresult] at hfirst
    rw [bind_ok hresult]
    exact (hf a middle).trans hfirst
  | error abort middle =>
    rw [hresult] at hfirst
    rw [bind_error hresult]
    exact hfirst

/-- The scope is put back whatever the action does with it. -/
theorem Restores.inScope {x : Exec α} (hx : Restores x) (scope : ScopeAddress) :
    Restores (inScope scope x) := by
  intro m
  have hdepth : (Machine.left (x { m with scope := scope })).depth = m.depth :=
    congrArg Prod.snd (hx { m with scope := scope })
  rw [inScope_eq, left_leaving]
  exact congrArg (Prod.mk m.scope) hdepth

/-- The result with the number of active calls put back to what it was. -/
def backTo (depth : Nat) : EStateM.Result Abort Machine α → EStateM.Result Abort Machine α
  | .ok a m => .ok a { m with depth := depth }
  | .error abort m => .error abort { m with depth := depth }

/-- The end of a call takes away what its start has added to the depth, which is all
that was added in between. -/
theorem frame_eq {x : Exec α} (hx : Restores x) (line : Nat) (m : Machine) :
    frame host line x m =
      if host.maxDepth.any (· ≤ m.depth) then .error (.runtime .stackOverflow line) m
      else backTo m.depth (x { m with depth := m.depth + 1 }) := by
  have hdepth : (Machine.left (x { m with depth := m.depth + 1 })).depth = m.depth + 1 :=
    congrArg Prod.snd (hx { m with depth := m.depth + 1 })
  have hback : (Machine.left (x { m with depth := m.depth + 1 })).depth - 1 = m.depth := by omega
  unfold frame
  dsimp only
  by_cases hfull : host.maxDepth.any (· ≤ m.depth) = true
  · rw [if_pos hfull, if_pos hfull]
  · rw [if_neg hfull, if_neg hfull]
    generalize x { m with depth := m.depth + 1 } = result at hback
    rw [← hback]
    cases result <;> rfl

theorem Restores.frame {x : Exec α} (hx : Restores x) (line : Nat) :
    Restores (frame host line x) := by
  intro m
  have hscope : (Machine.left (x { m with depth := m.depth + 1 })).scope = m.scope :=
    congrArg Prod.fst (hx { m with depth := m.depth + 1 })
  rw [frame_eq hx]
  by_cases hfull : host.maxDepth.any (· ≤ m.depth) = true
  · rw [if_pos hfull]
    rfl
  · rw [if_neg hfull]
    generalize x { m with depth := m.depth + 1 } = result at hscope
    cases result with
    | ok a after => exact congrArg (·, m.depth) hscope
    | error abort after => exact congrArg (·, m.depth) hscope

/-! ### Evaluation -/

/-- Evaluation is put together from actions that restore the place, so it is enough to
look at these. -/
theorem congruence_restores (host : Host) :
    Congruence host host idleWatch idleWatch fun _ _ _ y => Restores y where
  clock := rfl
  watched _ := (quiet_pure ()).restores
  quiet hx := hx.restores
  print := restores_print
  bind hx hf := hx.bind hf
  inScope scope hx := hx.inScope scope
  enter call hx := ((quiet_pure ()).restores.bind fun _ => hx).frame call.line

variable (host)

theorem restores_eval (fuel : Nat) (e : Expr) : Restores (eval host fuel e) := by
  have c := congruence_restores host
  have h : Restores (evalIn host idleWatch (fuel + 0) [] e) := (c.evaluation c.noSlack fuel).1 [] e
  rwa [(evaluation_unwatched host _).1] at h

theorem restores_exec (fuel : Nat) (s : Stmt) : Restores (exec host fuel s) := by
  have c := congruence_restores host
  have h : Restores (execIn host idleWatch (fuel + 0) [] s) := (c.evaluation c.noSlack fuel).2 [] s
  rwa [(evaluation_unwatched host _).2] at h

theorem restores_runProgram (fuel : Nat) (p : Program) : Restores (runProgram host fuel p) := by
  have c := congruence_restores host
  have h : Restores (runIn host idleWatch (fuel + 0) p) := c.runIn c.noSlack fuel p
  rwa [runIn_unwatched] at h

/-! ### Calls within one another -/

/-- An action as the body of the innermost of several calls, which stand on the given
lines, the outermost first. -/
def frames (lines : List Nat) (x : Exec α) : Exec α :=
  lines.foldr (frame host) x

variable {host}

theorem backTo_backTo (outer inner : Nat) (result : EStateM.Result Abort Machine α) :
    backTo outer (backTo inner result) = backTo outer result := by
  cases result <;> rfl

theorem backTo_left {x : Exec α} (hx : Restores x) (m : Machine) :
    backTo m.depth (x m) = x m := by
  have hdepth : (Machine.left (x m)).depth = m.depth := congrArg Prod.snd (hx m)
  rw [← hdepth]
  cases x m <;> rfl

theorem restores_frames {x : Exec α} (hx : Restores x) (lines : List Nat) :
    Restores (frames host lines x) := by
  induction lines with
  | nil => exact hx
  | cons line lines ih => exact ih.frame line

/-- The first call for which there is no level left is refused.  If there are enough
levels for all of them the action is run, so many levels further in. -/
theorem frames_eq {x : Exec α} (hx : Restores x) (lines : List Nat) (m : Machine) :
    frames host lines x m =
      match host.maxDepth.bind fun limit => lines[limit - m.depth]? with
      | some line => .error (.runtime .stackOverflow line) m
      | none => backTo m.depth (x { m with depth := m.depth + lines.length }) := by
  induction lines generalizing m with
  | nil =>
    have hnone : (host.maxDepth.bind fun limit => ([] : List Nat)[limit - m.depth]?) = none := by
      cases host.maxDepth <;> rfl
    rw [hnone]
    exact (backTo_left hx m).symm
  | cons line lines ih =>
    have hlength : m.depth + 1 + lines.length = m.depth + (line :: lines).length := by
      rw [List.length_cons]
      omega
    refine (frame_eq (restores_frames hx lines) line m).trans ?_
    rw [ih]
    cases host.maxDepth with
    | none =>
      refine (backTo_backTo _ _ _).trans ?_
      rw [hlength]
      rfl
    | some limit =>
      by_cases hfull : limit ≤ m.depth
      · have hfirst : limit - m.depth = 0 := by omega
        simp [hfull, hfirst]
      · -- one level is taken by this call, so as many are left for the others
        have hnext : limit - m.depth = limit - (m.depth + 1) + 1 := by omega
        simp only [Option.any_some, hfull, decide_false, Bool.false_eq_true, if_false,
          Option.bind_some, hnext, List.getElem?_cons_succ]
        cases lines[limit - (m.depth + 1)]? with
        | some refused => rfl
        | none =>
          refine (backTo_backTo _ _ _).trans ?_
          rw [hlength]

end Exec

namespace Session

variable {host : Host} {session : Session}

/-- Whatever is made of a source, its run leaves the machine where it was. -/
theorem place_runChecked (session : Session) (h : session.machine.place = (Store.globals, 0))
    (fuel : Nat) (checked : Except (List Diagnostic) Program) :
    (session.runChecked host fuel checked).2.machine.place = (Store.globals, 0) := by
  cases checked with
  | error diagnostics => exact h
  | ok p =>
    show (session.machine.run host fuel p).2.place = _
    rw [Machine.run_eq]
    have hrun := Exec.restores_runProgram host fuel p (session.machine.prepared p)
    cases hresult : Exec.runProgram host fuel p (session.machine.prepared p) with
    | ok _ final =>
      rw [hresult] at hrun
      exact hrun.trans h
    | error abort final =>
      rw [hresult] at hrun
      exact hrun.trans h

theorem Reachable.place (h : Reachable host session) :
    session.machine.place = (Store.globals, 0) := by
  induction h with
  | start sink => rfl
  | parse _ source ih => exact ih
  | @run session _ fuel source ih => exact place_runChecked (session.check source).2 ih fuel _

/-- A session in which ids came round again is in its place between two steps as well. -/
theorem ReachableWrapped.place (h : ReachableWrapped host session) :
    session.machine.place = (Store.globals, 0) := by
  induction h with
  | start sink => rfl
  | parse _ source ih => exact ih
  | @run session _ fuel source ih =>
    exact place_runChecked (session.checkWrapped source).2 ih fuel _

variable (host)

/-- Evaluation puts the current scope and the depth of calls back from every machine,
however it ends.  So after any steps the current scope is that of the global variables
and no call is active, and calls within one another are refused only when the levels of
the host are used up. -/
theorem place_restored :
    (∀ fuel e m, (Machine.left (Exec.eval host fuel e m)).scope = m.scope ∧
      (Machine.left (Exec.eval host fuel e m)).depth = m.depth) ∧
    (∀ fuel s m, (Machine.left (Exec.exec host fuel s m)).scope = m.scope ∧
      (Machine.left (Exec.exec host fuel s m)).depth = m.depth) ∧
    ∀ sink steps, ((start sink).after host steps).machine.scope = Store.globals ∧
      ((start sink).after host steps).machine.depth = 0 ∧
      ∀ lines fuel e, Exec.frames host lines (Exec.eval host fuel e)
          ((start sink).after host steps).machine =
        match host.maxDepth.bind fun limit => lines[limit]? with
        | some line =>
          .error (.runtime .stackOverflow line) ((start sink).after host steps).machine
        | none => Exec.backTo 0 (Exec.eval host fuel e
          { ((start sink).after host steps).machine with depth := lines.length }) := by
  refine ⟨fun fuel e m => Prod.mk.inj (Exec.restores_eval host fuel e m),
    fun fuel s m => Prod.mk.inj (Exec.restores_exec host fuel s m), fun sink steps => ?_⟩
  have hstart : Reachable host (start sink) := .start sink
  obtain ⟨hscope, hdepth⟩ := Prod.mk.inj (hstart.after steps).place
  refine ⟨hscope, hdepth, fun lines fuel e => ?_⟩
  rw [Exec.frames_eq (Exec.restores_eval host fuel e), hdepth, Nat.zero_add]
  rfl

end Session

end Lox
