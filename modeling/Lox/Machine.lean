/-
The machine that runs programs: its state, the ways in which a run stops early,
and the elementary actions that evaluation is made of.

An action is an `Exec`.  It either yields a value or stops with an `Abort`; in
both cases it leaves a machine behind, so what was printed and assigned before
an error is kept.

`Exec.inScope` and `Exec.frame` put the current scope and the depth of calls back,
however the action inside them ends.
-/
import Lox.Scoping.Findings
import Lox.Store
import Lox.Value.Operators

namespace Lox

/-- What a machine is given from outside: how many calls may be active at once,
and the seconds that successive readings of the clock show. -/
structure Host where
  maxDepth : Option Nat
  clock : Nat → Float

/-- The greatest number of calls that are active at once. -/
def maxCallDepth : Nat := 4096

/-- Where printed bytes go.  `room` is the number of bytes that are still
accepted, unlimited if there is none. -/
structure Sink where
  room : Option Nat
  written : ByteArray

namespace Sink

/-- A sink that accepts so many bytes. -/
def ofLimit (limit : Option Nat) : Sink :=
  ⟨limit, .empty⟩

/-- Accepts the bytes as far as there is room, and says whether all were. -/
def write (sink : Sink) (bytes : ByteArray) : Bool × Sink :=
  match sink.room with
  | none => (true, ⟨none, sink.written ++ bytes⟩)
  | some room =>
    if bytes.size ≤ room then (true, ⟨some (room - bytes.size), sink.written ++ bytes⟩)
    else (false, ⟨some 0, sink.written ++ bytes.extract 0 room⟩)

end Sink

/-- The state of a run: the store, the current scope, the number of active calls,
the distances of local names, the output and the number of clock readings. -/
structure Machine where
  store : Store
  scope : ScopeAddress
  depth : Nat
  distances : Distances
  sink : Sink
  readings : Nat

/-- A machine that has run nothing. -/
def Machine.initial (sink : Sink) : Machine :=
  { store := .initial
    scope := Store.globals
    depth := 0
    distances := {}
    sink := sink
    readings := 0 }

/-- Why a run stops early.  `dangling` stands for a binding that scoping has
promised and that is missing, `outOfFuel` for a bound that was too small. -/
inductive Abort where
  | runtime (error : RuntimeError) (line : Nat)
  | sinkFull
  | dangling
  | outOfFuel
  deriving DecidableEq, Repr

/-- An action of the machine. -/
abbrev Exec := EStateM Abort Machine

namespace Exec

variable {α : Type}

/-- Stops with an error at a line. -/
def fail (error : RuntimeError) (line : Nat) : Exec α :=
  throw (.runtime error line)

/-- The value of an operator, whose errors are put on its line. -/
def ofExcept (line : Nat) : Except RuntimeError α → Exec α
  | .ok a => pure a
  | .error error => fail error line

/-- The current scope. -/
def currentScope : Exec ScopeAddress := fun machine =>
  .ok machine.scope machine

/-- Binds a name in the current scope. -/
def define (name : String) (value : Datum) : Exec Unit := fun machine =>
  .ok () { machine with store := machine.store.define machine.scope name value }

/-- A new scope. -/
def newScope (parent : ScopeAddress) (bindings : Bindings Datum) : Exec ScopeAddress :=
  fun machine =>
    let (scope, store) := machine.store.newScope parent bindings
    .ok scope { machine with store := store }

/-- A new instance. -/
def newInstance (cls : Class ScopeAddress) : Exec InstanceAddress := fun machine =>
  let (instanceAt, store) := machine.store.newInstance cls
  .ok instanceAt { machine with store := store }

/-- A new identity. -/
def newIdentity : Exec Nat := fun machine =>
  let (id, store) := machine.store.newIdentity
  .ok id { machine with store := store }

/-- Sets a field of an instance. -/
def setField (instanceAt : InstanceAddress) (name : String) (value : Datum) : Exec Unit :=
  fun machine => .ok () { machine with store := machine.store.setField instanceAt name value }

/-- The instance at an address. -/
def instanceAt? (address : InstanceAddress) : Exec (Option Instance) := fun machine =>
  .ok machine.store.instances[address]? machine

/-- What a name is bound to exactly so many scopes out of a scope. -/
def getAt (scope : ScopeAddress) (distance : Nat) (name : String) : Exec (Option Datum) :=
  fun machine => .ok (machine.store.getAt scope distance name) machine

/-- The distance that is known for a reference. -/
def distance? (id : Nat) : Exec (Option Nat) := fun machine =>
  .ok machine.distances[id]? machine

/-- The value of a reference: at its distance if one is known, else among the
global variables. -/
def read (target : Reference) : Exec Datum := fun machine =>
  let found :=
    match machine.distances[target.id]? with
    | some distance => machine.store.getAt machine.scope distance target.name.text
    | none => machine.store.get Store.globals target.name.text
  match found with
  | some value => .ok value machine
  | none => .error (.runtime (.undefinedVariable target.name.text) target.name.line) machine

/-- Assigns to a reference, which is found as in `read`. -/
def write (target : Reference) (value : Datum) : Exec Unit := fun machine =>
  let (found, store) :=
    match machine.distances[target.id]? with
    | some distance => machine.store.assignAt machine.scope distance target.name.text value
    | none => machine.store.assign Store.globals target.name.text value
  let machine := { machine with store := store }
  if found then .ok () machine
  else .error (.runtime (.undefinedVariable target.name.text) target.name.line) machine

/-- Prints a value and a newline, or as much of them as the sink accepts. -/
def print (value : Datum) : Exec Unit := fun machine =>
  let text := value.text machine.store.className ++ "\n"
  let (accepted, sink) := machine.sink.write text.toUTF8
  let machine := { machine with sink := sink }
  if accepted then .ok () machine else .error .sinkFull machine

/-- The next reading of the clock. -/
def readClock (host : Host) : Exec Datum := fun machine =>
  .ok (.number (host.clock machine.readings)) { machine with readings := machine.readings + 1 }

/-- Runs an action with another scope as the current one. -/
def inScope (scope : ScopeAddress) (action : Exec α) : Exec α := fun machine =>
  let before := machine.scope
  match action { machine with scope := scope } with
  | .ok a machine => .ok a { machine with scope := before }
  | .error abort machine => .error abort { machine with scope := before }

/-- Runs an action as the body of a call whose closing parenthesis is on the
given line; fails when too many calls are active. -/
def frame (host : Host) (line : Nat) (action : Exec α) : Exec α := fun machine =>
  let depth := machine.depth
  if host.maxDepth.any (· ≤ depth) then
    .error (.runtime .stackOverflow line) machine
  else
    match action { machine with depth := depth + 1 } with
    | .ok a machine => .ok a { machine with depth := machine.depth - 1 }
    | .error abort machine => .error abort { machine with depth := machine.depth - 1 }

end Exec

end Lox
