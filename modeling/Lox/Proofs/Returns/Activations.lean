/-
What one call does, as a list of events.

`Exec.execLogged` executes like `Exec.exec`, and notes each statement when it is reached,
each condition of a loop when it is tested and each value when it is given by a `return`.
It notes nothing of what is called from an expression: the events are those of one
activation.

* `Exec.traces_execLogged` — it is the same execution, and a value that is given is the
  last event;
* `Exec.invoke_eq_activation` — a call gives the first value that its activation gives,
  or `nil`;
* `Exec.activation_stops` — nothing happens in an activation after that.
-/
import Lox.Proofs.Lockstep.Actions

namespace Lox

/-- Something that a call does: it reaches a statement, tests the condition of a loop or
gives a value back. -/
inductive Event where
  | reach (stmt : Stmt)
  | test (condition : Expr)
  | give (value : Datum)

/-- The value that is given. -/
def Event.given? : Event → Option Datum
  | give value => some value
  | _ => none

/-- An action with the events so far. -/
abbrev Logged := StateT (List Event) Exec

namespace Exec

variable {α β : Type}

/-- Notes an event. -/
def emit (event : Event) : Logged Unit :=
  modify (· ++ [event])

/-- Like `Exec.inScope`. -/
def inScopeLogged (scope : ScopeAddress) (action : Logged α) : Logged α :=
  fun log => inScope scope (action log)

/-- Like `Exec.execEach`. -/
def execEachLogged (execute : Stmt → Logged Flow) : List Stmt → Logged Flow
  | [] => return .normal
  | s :: ss => do
    match ← execute s with
    | .normal => execEachLogged execute ss
    | .returned value => return .returned value

/-- Like `Exec.repeatWhile`. -/
def repeatLogged (condition : Logged Datum) (body : Logged Flow) : Nat → Logged Flow
  | 0 => throw .outOfFuel
  | fuel + 1 => do
    let value ← condition
    if value.isTruthy then
      match ← body with
      | .normal => repeatLogged condition body fuel
      | .returned value => return .returned value
    else
      return .normal

/-- Like `Exec.exec`. -/
def execLogged (host : Host) : Nat → Stmt → Logged Flow
  | 0, _ => throw .outOfFuel
  | fuel + 1, stmt => do
    emit (.reach stmt)
    match stmt with
    | .expression value =>
      let _ ← eval host fuel value
      return .normal
    | .print value =>
      let value ← eval host fuel value
      print value
      return .normal
    | .varDecl name initializer =>
      let value ←
        match initializer with
        | some value => eval host fuel value
        | none => pure .nil
      define name.text value
      return .normal
    | .block body =>
      let scope ← newScope (← currentScope) []
      inScopeLogged scope (execEachLogged (execLogged host fuel) body)
    | .ifElse condition thenBranch elseBranch =>
      let value ← eval host fuel condition
      if value.isTruthy then
        execLogged host fuel thenBranch
      else
        match elseBranch with
        | some elseBranch => execLogged host fuel elseBranch
        | none => return .normal
    | .whileLoop condition body =>
      let test : Logged Datum := do
        emit (.test condition)
        eval host fuel condition
      repeatLogged test (execLogged host fuel body) fuel
    | .funDecl decl =>
      declareFunction decl
      return .normal
    | .returnValue _ value =>
      let value ←
        match value with
        | some value => eval host fuel value
        | none => pure .nil
      emit (.give value)
      return .returned value
    | .classDecl decl =>
      declareClass decl
      return .normal

/-- The events in the body of a closure that is called. -/
def activation (host : Host) (fuel : Nat) (closure : Closure ScopeAddress)
    (arguments : List Datum) (line : Nat) : Exec (List Event) := do
  let names := closure.decl.params.map Name.text
  let scope ← newScope closure.env (Bindings.ofList (names.zip arguments))
  let (_, log) ← frame host line
    (inScope scope (execEachLogged (execLogged host fuel) closure.decl.body []))
  return log

/-! ### The same execution -/

/-- No value is given. -/
def Silent (events : List Event) : Prop :=
  ∀ value, .give value ∉ events

/-- The events of code that ends so: a value that is given is the last of them. -/
inductive Ends : List Event → Flow → Prop
  | normal {events} (silent : Silent events) : Ends events .normal
  | returned {events value} (silent : Silent events) :
    Ends (events ++ [.give value]) (.returned value)

/-- The results are the same, and the events after the given ones are as the ending says. -/
inductive Matches (log : List Event) : EStateM.Result Abort Machine (Flow × List Event) →
    EStateM.Result Abort Machine Flow → Prop
  | ok {flow events m} (ends : Ends events flow) :
    Matches log (.ok (flow, log ++ events) m) (.ok flow m)
  | error {abort m} : Matches log (.error abort m) (.error abort m)

/-- The first action does what the second does, and notes events. -/
def Traces (x : Logged Flow) (y : Exec Flow) : Prop :=
  ∀ log m, Matches log (x log m) (y m)

variable {host : Host} {x x' : Logged Flow} {y y' : Exec Flow}

theorem Ends.after {events later : List Event} {flow : Flow} (hsilent : Silent events)
    (h : Ends later flow) : Ends (events ++ later) flow := by
  have happend : ∀ {more}, Silent more → Silent (events ++ more) := fun hmore value hmem =>
    (List.mem_append.mp hmem).elim (hsilent value) (hmore value)
  cases h with
  | normal silent => exact .normal (happend silent)
  | returned silent =>
    rw [← List.append_assoc]
    exact .returned (happend silent)

theorem silent_nil : Silent [] :=
  fun _ => List.not_mem_nil

theorem Traces.normal : Traces (pure .normal) (pure .normal) := by
  intro log m
  have h : Matches log (.ok (.normal, log ++ []) m) (.ok .normal m) := .ok (.normal silent_nil)
  rwa [List.append_nil] at h

theorem Traces.throw (abort : Abort) : Traces (throw abort) (throw abort) :=
  fun _ _ => .error

/-- A value that is given, and nothing after it. -/
theorem Traces.give (value : Datum) :
    Traces (emit (.give value) >>= fun _ => pure (.returned value)) (pure (.returned value)) :=
  have hends : Ends ([] ++ [.give value]) (.returned value) := .returned silent_nil
  fun _ _ => .ok hends

/-- An action without events, and then one that is traced. -/
theorem Traces.lift {z : Exec α} {f : α → Logged Flow} {g : α → Exec Flow}
    (h : ∀ a, Traces (f a) (g a)) : Traces ((z : Logged α) >>= f) (z >>= g) := by
  intro log m
  show Matches log (EStateM.bind (EStateM.bind z fun a => pure (a, log)) _ m) (EStateM.bind z g m)
  unfold EStateM.bind
  cases z m with
  | ok a m' => exact h a log m'
  | error abort m' => exact .error

/-- An event that gives no value. -/
theorem Traces.emit {event : Event} (hevent : event.given? = none) (h : Traces x y) :
    Traces (Exec.emit event >>= fun _ => x) y := by
  intro log m
  show Matches log (x (log ++ [event]) m) (y m)
  have hsilent : Silent [event] := by
    intro value hmem
    rw [← List.mem_singleton.mp hmem] at hevent
    cases hevent
  have hrest := h (log ++ [event]) m
  generalize x (log ++ [event]) m = result, y m = result' at hrest
  cases hrest with
  | ok ends =>
    rw [List.append_assoc]
    exact .ok (ends.after hsilent)
  | error => exact .error

/-- What comes after code that may return: nothing if it does. -/
theorem Traces.bind (h : Traces x y) (h' : Traces x' y') :
    Traces
      (x >>= fun flow =>
        match flow with
        | .normal => x'
        | .returned value => pure (.returned value))
      (y >>= fun flow =>
        match flow with
        | .normal => y'
        | .returned value => pure (.returned value)) := by
  intro log m
  have hfirst := h log m
  show Matches log (EStateM.bind (x log) _ m) (EStateM.bind y _ m)
  unfold EStateM.bind
  generalize x log m = result, y m = result' at hfirst
  cases hfirst with
  | error => exact .error
  | @ok flow events m' ends =>
    cases ends with
    | returned silent => exact .ok (.returned silent)
    | normal silent =>
      have hsecond := h' (log ++ events) m'
      show Matches log (x' (log ++ events) m') (y' m')
      generalize x' (log ++ events) m' = result, y' m' = result' at hsecond
      cases hsecond with
      | error => exact .error
      | ok ends =>
        rw [List.append_assoc]
        exact .ok (ends.after silent)

theorem Matches.inScope {log : List Event} {x : Exec (Flow × List Event)} {y : Exec Flow}
    (h : ∀ m, Matches log (x m) (y m)) (scope : ScopeAddress) (m : Machine) :
    Matches log (inScope scope x m) (inScope scope y m) := by
  unfold Exec.inScope
  have hinner := h { m with scope := scope }
  generalize x { m with scope := scope } = result, y { m with scope := scope } = result' at hinner
  cases hinner with
  | ok ends => exact .ok ends
  | error => exact .error

theorem Matches.frame {log : List Event} {x : Exec (Flow × List Event)} {y : Exec Flow}
    (h : ∀ m, Matches log (x m) (y m)) (line : Nat) (m : Machine) :
    Matches log (frame host line x m) (frame host line y m) := by
  unfold Exec.frame
  dsimp only
  split
  · exact .error
  · have hinner := h { m with depth := m.depth + 1 }
    generalize x { m with depth := m.depth + 1 } = result,
      y { m with depth := m.depth + 1 } = result' at hinner
    cases hinner with
    | ok ends => exact .ok ends
    | error => exact .error

theorem Traces.inScope (h : Traces x y) (scope : ScopeAddress) :
    Traces (inScopeLogged scope x) (inScope scope y) :=
  fun log m => Matches.inScope (h log) scope m

theorem traces_execEachLogged {execute : Stmt → Logged Flow} {execute' : Stmt → Exec Flow}
    (h : ∀ s, Traces (execute s) (execute' s)) (ss : List Stmt) :
    Traces (execEachLogged execute ss) (execEach execute' ss) := by
  induction ss with
  | nil => exact .normal
  | cons s ss ih => exact (h s).bind ih

theorem traces_repeatLogged {condition : Exec Datum} {event : Event}
    (hevent : event.given? = none) (h : Traces x y) (fuel : Nat) :
    Traces (repeatLogged (emit event >>= fun _ => condition) x fuel)
      (repeatWhile condition y fuel) := by
  induction fuel with
  | zero => exact .throw _
  | succ fuel ih =>
    have htest : Traces (emit event >>= fun _ => (condition : Logged Datum) >>= fun value =>
        if value.isTruthy then
          x >>= fun flow =>
            match flow with
            | .normal => repeatLogged (emit event >>= fun _ => condition) x fuel
            | .returned value => pure (.returned value)
        else pure .normal) (repeatWhile condition y (fuel + 1)) := by
      refine .emit hevent (.lift fun value => ?_)
      split
      · exact h.bind ih
      · exact .normal
    exact fun log m => htest log m

/-- Noting what happens changes nothing, and a value that is given comes last. -/
theorem traces_execLogged (fuel : Nat) (s : Stmt) :
    Traces (execLogged host fuel s) (exec host fuel s) := by
  induction fuel generalizing s with
  | zero =>
    rw [execLogged, exec]
    exact .throw _
  | succ fuel ih =>
    have reach : ∀ {x y}, Traces x y → Traces (emit (.reach s) >>= fun _ => x) y :=
      Traces.emit rfl
    cases s with
    | expression value => exact reach (.lift fun _ => .normal)
    | print value => exact reach (.lift fun value => .lift fun _ => .normal)
    | varDecl name initializer =>
      cases initializer with
      | none => exact reach (.lift (z := pure Value.nil) fun value => .lift fun _ => .normal)
      | some value => exact reach (.lift fun value => .lift fun _ => .normal)
    | block body =>
      exact reach (.lift fun current => .lift fun scope =>
        (traces_execEachLogged ih body).inScope scope)
    | ifElse condition thenBranch elseBranch =>
      refine reach (.lift fun value => ?_)
      split
      · exact ih thenBranch
      · cases elseBranch with
        | none => exact .normal
        | some elseBranch => exact ih elseBranch
    | whileLoop condition body => exact reach (traces_repeatLogged rfl (ih body) fuel)
    | funDecl decl => exact reach (.lift fun _ => .normal)
    | returnValue line value =>
      cases value with
      | none => exact reach (.give .nil)
      | some value => exact reach (.lift fun value => .give value)
    | classDecl decl => exact reach (.lift fun _ => .normal)

/-! ### Calls -/

/-- The first value that is given, or `nil`. -/
def firstGiven (events : List Event) : Datum :=
  (events.findSome? Event.given?).getD .nil

theorem Silent.findSome? {events : List Event} (h : Silent events) :
    events.findSome? Event.given? = none := by
  rw [List.findSome?_eq_none_iff]
  intro event hmem
  cases event with
  | give value => exact absurd hmem (h value)
  | _ => rfl

/-- Code that ends gives the first value that its events give. -/
theorem Ends.result_eq {events : List Event} {flow : Flow} (h : Ends events flow) :
    flow.result = firstGiven events := by
  unfold firstGiven
  cases h with
  | normal silent =>
    rw [silent.findSome?]
    rfl
  | returned silent =>
    rw [List.findSome?_append, silent.findSome?]
    rfl

/-- A value that is given is the last event, and what the code ends with. -/
theorem Ends.last {events before after : List Event} {flow : Flow} {value : Datum}
    (h : Ends events flow) (heq : events = before ++ .give value :: after) :
    flow = .returned value ∧ after = [] := by
  have hmem : Event.give value ∈ events := by
    rw [heq]
    exact List.mem_append_right _ List.mem_cons_self
  cases h with
  | normal silent => exact absurd hmem (silent value)
  | returned silent =>
    rcases List.eq_nil_or_concat after with rfl | ⟨more, last, rfl⟩
    · obtain ⟨-, hlast⟩ := List.append_inj' heq rfl
      cases hlast
      exact ⟨rfl, rfl⟩
    · -- otherwise the value was given before the last event, where none is
      rw [List.concat_eq_append, ← List.cons_append, ← List.append_assoc] at heq
      obtain ⟨rfl, -⟩ := List.append_inj' heq rfl
      exact absurd (List.mem_append_right _ List.mem_cons_self) (silent value)

/-- The body of a call, with and without its events. -/
theorem matches_body (host : Host) (fuel : Nat) (body : List Stmt) (line : Nat)
    (scope : ScopeAddress) (m : Machine) :
    Matches [] (frame host line (inScope scope (execEachLogged (execLogged host fuel) body [])) m)
      (frame host line (inScope scope (execEach (exec host fuel) body)) m) :=
  .frame (.inScope (traces_execEachLogged (traces_execLogged fuel) body []) scope) line m

variable {fuel : Nat} {f : Closure ScopeAddress} {arguments : List Datum} {line : Nat}

/-- A call of any function but an initializer gives the first value that its activation
gives, and `nil` if it gives none. -/
theorem invoke_eq_activation (hf : f.isInitializer = false) :
    invoke host (exec host fuel) f arguments line =
      activation host fuel f arguments line >>= fun log => pure (firstGiven log) := by
  unfold invoke activation
  simp only [bind_assoc, pure_bind, hf, Bool.false_eq_true, if_false]
  refine bind_congr fun scope => funext fun m => ?_
  have hbody := matches_body host fuel f.decl.body line scope m
  show EStateM.bind _ _ m = EStateM.bind _ _ m
  unfold EStateM.bind
  generalize frame host line (inScope scope (execEachLogged _ _ _)) m = result,
    frame host line (inScope scope (execEach _ _)) m = result' at hbody
  cases hbody with
  | ok ends => exact congrArg (EStateM.Result.ok · _) ends.result_eq
  | error => rfl

/-- The first value that an activation gives is the last thing that happens in it. -/
theorem activation_stops {m m' : Machine} {log before after : List Event} {value : Datum}
    (h : activation host fuel f arguments line m = .ok log m')
    (heq : log = before ++ .give value :: after) : firstGiven log = value ∧ after = [] := by
  let scope := m.store.scopes.size
  let entered : Machine := { m with store := (m.store.newScope f.env
    (Bindings.ofList ((f.decl.params.map Name.text).zip arguments))).2 }
  let body := frame host line (inScope scope (execEachLogged (execLogged host fuel) f.decl.body []))
  have hbody : Matches [] (body entered) _ :=
    matches_body host fuel f.decl.body line scope entered
  have hactivation : activation host fuel f arguments line m =
      EStateM.bind body (fun ended => pure ended.2) entered := rfl
  rw [hactivation, EStateM.bind] at h
  generalize body entered = result, frame host line _ entered = result' at hbody h
  cases hbody with
  | ok ends =>
    cases h
    obtain ⟨rfl, hafter⟩ := ends.last heq
    exact ⟨ends.result_eq.symm, hafter⟩
  | error => cases h

end Exec

end Lox
