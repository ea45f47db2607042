/-
What single actions do with the machine.

Evaluation is put together from few actions.  Most of them only touch the store: they do
the same whatever the sink accepts and however many calls are active, and leave both as
they are, and the current scope too.  Of the others `Exec.print` writes to the sink, and
`Exec.inScope` and `Exec.frame` run an action in another place.

* `Exec.bind_ok`, `Exec.inScope_eq`, `Exec.frame_of_not_full` — actions that are put
  together from others;
* `Exec.Quiet` — the action does not see the sink and the depth of calls;
* `Exec.Quiet.sink`, `Exec.Quiet.depth` — it does not change them either.
-/
import Lox.Session

namespace Lox

/-- The machine that an action leaves behind, whether it yields a value or stops. -/
def Machine.left {α : Type} : EStateM.Result Abort Machine α → Machine
  | .ok _ machine => machine
  | .error _ machine => machine

/-- The machine with another sink and another number of active calls. -/
def Machine.amid (m : Machine) (sink : Sink) (depth : Nat) : Machine :=
  { m with sink := sink, depth := depth }

namespace Exec

variable {α β : Type} {host : Host} {m : Machine}

/-! ### Results -/

/-- The same result with a changed machine. -/
def leaving (change : Machine → Machine) :
    EStateM.Result Abort Machine α → EStateM.Result Abort Machine α
  | .ok a m => .ok a (change m)
  | .error abort m => .error abort (change m)

@[simp]
theorem left_leaving (change : Machine → Machine) (result : EStateM.Result Abort Machine α) :
    Machine.left (leaving change result) = change (Machine.left result) := by
  cases result <;> rfl

/-- Two changes of a machine that are the same for the machine that is left. -/
theorem leaving_congr {change change' : Machine → Machine}
    {result : EStateM.Result Abort Machine α}
    (h : change (Machine.left result) = change' (Machine.left result)) :
    leaving change result = leaving change' result := by
  cases result with
  | ok a m => exact congrArg (EStateM.Result.ok a) h
  | error abort m => exact congrArg (EStateM.Result.error abort) h

/-! ### Actions that are put together -/

theorem bind_ok {x : Exec α} {f : α → Exec β} {m m' : Machine} {a : α} (h : x m = .ok a m') :
    (x >>= f) m = f a m' := by
  show EStateM.bind x f m = f a m'
  unfold EStateM.bind
  rw [h]

theorem bind_error {x : Exec α} {f : α → Exec β} {m m' : Machine} {abort : Abort}
    (h : x m = .error abort m') : (x >>= f) m = .error abort m' := by
  show EStateM.bind x f m = .error abort m'
  unfold EStateM.bind
  rw [h]

theorem inScope_eq (scope : ScopeAddress) (x : Exec α) (m : Machine) :
    inScope scope x m =
      leaving (fun m' => { m' with scope := m.scope }) (x { m with scope := scope }) := by
  unfold inScope
  dsimp only
  cases x { m with scope := scope } <;> rfl

/-- A call for which there is a level left. -/
theorem frame_of_not_full (line : Nat) (x : Exec α)
    (h : host.maxDepth.any (· ≤ m.depth) = false) :
    frame host line x m =
      leaving (fun m' => { m' with depth := m'.depth - 1 })
        (x { m with depth := m.depth + 1 }) := by
  unfold frame
  dsimp only
  rw [h]
  cases x { m with depth := m.depth + 1 } <;> rfl

/-- A call for which there is none. -/
theorem frame_of_full (line : Nat) (x : Exec α) (h : host.maxDepth.any (· ≤ m.depth) = true) :
    frame host line x m = .error (.runtime .stackOverflow line) m :=
  if_pos h

/-! ### Quiet actions -/

/-- The action does the same whatever the sink and the depth of calls are, and it stays in
the current scope. -/
structure Quiet (x : Exec α) : Prop where
  amid : ∀ m sink depth, x (m.amid sink depth) = leaving (·.amid sink depth) (x m)
  scope : ∀ m, (Machine.left (x m)).scope = m.scope

/-- The machine is given its own sink and depth, so the equation says that they are the
ones that are left. -/
theorem Quiet.unchanged {x : Exec α} (hx : Quiet x) (m : Machine) :
    Machine.left (x m) = (Machine.left (x m)).amid m.sink m.depth := by
  have hsame : x m = leaving (·.amid m.sink m.depth) (x m) := hx.amid m m.sink m.depth
  rw [← left_leaving (·.amid m.sink m.depth), ← hsame]

theorem Quiet.sink {x : Exec α} (hx : Quiet x) (m : Machine) :
    (Machine.left (x m)).sink = m.sink := by
  rw [hx.unchanged m]
  rfl

theorem Quiet.depth {x : Exec α} (hx : Quiet x) (m : Machine) :
    (Machine.left (x m)).depth = m.depth := by
  rw [hx.unchanged m]
  rfl

theorem quiet_pure (a : α) : Quiet (pure a) :=
  ⟨fun _ _ _ => rfl, fun _ => rfl⟩

theorem quiet_throw (abort : Abort) : Quiet (throw abort : Exec α) :=
  ⟨fun _ _ _ => rfl, fun _ => rfl⟩

theorem quiet_fail (error : RuntimeError) (line : Nat) : Quiet (fail error line : Exec α) :=
  quiet_throw _

theorem quiet_ofExcept (line : Nat) (result : Except RuntimeError α) :
    Quiet (ofExcept line result) := by
  cases result with
  | ok a => exact quiet_pure a
  | error error => exact quiet_fail error line

theorem quiet_currentScope : Quiet currentScope :=
  ⟨fun _ _ _ => rfl, fun _ => rfl⟩

theorem quiet_define (name : String) (value : Datum) : Quiet (define name value) :=
  ⟨fun _ _ _ => rfl, fun _ => rfl⟩

theorem quiet_newScope (parent : ScopeAddress) (bindings : Bindings Datum) :
    Quiet (newScope parent bindings) :=
  ⟨fun _ _ _ => rfl, fun _ => rfl⟩

theorem quiet_newInstance (cls : Class ScopeAddress) : Quiet (newInstance cls) :=
  ⟨fun _ _ _ => rfl, fun _ => rfl⟩

theorem quiet_newIdentity : Quiet newIdentity :=
  ⟨fun _ _ _ => rfl, fun _ => rfl⟩

theorem quiet_setField (address : InstanceAddress) (name : String) (value : Datum) :
    Quiet (setField address name value) :=
  ⟨fun _ _ _ => rfl, fun _ => rfl⟩

theorem quiet_instanceAt? (address : InstanceAddress) : Quiet (instanceAt? address) :=
  ⟨fun _ _ _ => rfl, fun _ => rfl⟩

theorem quiet_getAt (scope : ScopeAddress) (distance : Nat) (name : String) :
    Quiet (getAt scope distance name) :=
  ⟨fun _ _ _ => rfl, fun _ => rfl⟩

theorem quiet_distance? (id : Nat) : Quiet (distance? id) :=
  ⟨fun _ _ _ => rfl, fun _ => rfl⟩

theorem quiet_readClock (host : Host) : Quiet (readClock host) :=
  ⟨fun _ _ _ => rfl, fun _ => rfl⟩

theorem quiet_read (target : Reference) : Quiet (read target) := by
  refine ⟨fun m sink depth => ?_, fun m => ?_⟩
  · unfold read
    simp only [Machine.amid]
    split <;> rfl
  · unfold read
    dsimp only
    split <;> rfl

theorem quiet_write (target : Reference) (value : Datum) : Quiet (write target value) := by
  refine ⟨fun m sink depth => ?_, fun m => ?_⟩
  · have hdistances : (m.amid sink depth).distances = m.distances := rfl
    unfold write
    rw [hdistances]
    cases m.distances[target.id]? with
    | none =>
      dsimp only [Machine.amid]
      split <;> rfl
    | some distance =>
      dsimp only [Machine.amid]
      split <;> rfl
  · unfold write
    dsimp only
    cases m.distances[target.id]? with
    | none =>
      dsimp only
      split <;> rfl
    | some distance =>
      dsimp only
      split <;> rfl

theorem Quiet.bind {x : Exec α} {f : α → Exec β} (hx : Quiet x) (hf : ∀ a, Quiet (f a)) :
    Quiet (x >>= f) := by
  refine ⟨fun m sink depth => ?_, fun m => ?_⟩
  · have hfirst := hx.amid m sink depth
    cases hresult : x m with
    | ok a middle =>
      rw [hresult] at hfirst
      rw [bind_ok hfirst, bind_ok hresult]
      exact (hf a).amid middle sink depth
    | error abort middle =>
      rw [hresult] at hfirst
      rw [bind_error hfirst, bind_error hresult]
      rfl
  · have hfirst := hx.scope m
    cases hresult : x m with
    | ok a middle =>
      rw [hresult] at hfirst
      rw [bind_ok hresult]
      exact ((hf a).scope middle).trans hfirst
    | error abort middle =>
      rw [hresult] at hfirst
      rw [bind_error hresult]
      exact hfirst

/-! ### Methods and classes -/

theorem quiet_bindMethod (method : Closure ScopeAddress) (this : InstanceAddress) :
    Quiet (bindMethod method this) :=
  (quiet_newScope _ _).bind fun _ => quiet_pure _

theorem quiet_makeFunction (closure : Closure ScopeAddress) : Quiet (makeFunction closure) :=
  quiet_newIdentity.bind fun _ => quiet_pure _

theorem quiet_boundMethod (method : Closure ScopeAddress) (this : InstanceAddress) :
    Quiet (bindMethod method this >>= makeFunction) :=
  (quiet_bindMethod method this).bind quiet_makeFunction

theorem quiet_getProperty (object : Datum) (name : Name) : Quiet (getProperty object name) := by
  cases object with
  | instanceRef address =>
    refine (quiet_instanceAt? address).bind fun target => ?_
    cases target with
    | none => exact quiet_throw _
    | some target =>
      dsimp only
      cases target.fields.find? name.text with
      | some value => exact quiet_pure value
      | none =>
        cases target.cls.method? name.text with
        | some method => exact quiet_boundMethod method address
        | none => exact quiet_fail _ _
  | _ => exact quiet_fail _ _

theorem quiet_getSuper (id : Nat) (method : Name) : Quiet (getSuper id method) := by
  refine (quiet_distance? id).bind fun distance => ?_
  match distance with
  | none | some 0 => exact quiet_throw _
  | some (distance + 1) =>
    refine quiet_currentScope.bind fun scope => ?_
    refine (quiet_getAt _ _ _).bind fun superclass => ?_
    refine (quiet_getAt _ _ _).bind fun this => ?_
    split
    · rename_i superclass this
      cases superclass.method? method.text with
      | some found => exact quiet_boundMethod found this
      | none => exact quiet_fail _ _
    · exact quiet_throw _

theorem quiet_getSuperclass (superclass : Option Reference) :
    Quiet (getSuperclass superclass) := by
  cases superclass with
  | none => exact quiet_pure none
  | some target =>
    refine (quiet_read target).bind fun value => ?_
    cases value with
    | classObject c => exact quiet_pure (some c)
    | _ => exact quiet_fail _ _

theorem quiet_declareFunction (decl : FunctionDecl) : Quiet (declareFunction decl) := by
  refine quiet_currentScope.bind fun scope => ?_
  exact (quiet_makeFunction _).bind fun function => quiet_define _ _

theorem quiet_declareClass (decl : ClassDecl) : Quiet (declareClass decl) := by
  refine (quiet_getSuperclass decl.superclass).bind fun superclass => ?_
  refine (quiet_define _ _).bind fun _ => quiet_currentScope.bind fun scope => ?_
  cases superclass with
  | none =>
    refine (quiet_pure scope).bind fun scope => ?_
    exact quiet_newIdentity.bind fun id => quiet_define _ _
  | some c =>
    refine (quiet_newScope scope _).bind fun scope => ?_
    exact quiet_newIdentity.bind fun id => quiet_define _ _

end Exec

end Lox
