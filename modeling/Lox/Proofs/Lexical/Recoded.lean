/-
Lexical evaluation with other code in its values.

A recoding can be put through a whole world.  What evaluation does besides running code
does in a recoded world what it does without the recoding, but that it reports errors on
the new lines.  The same holds of what was printed before.

* `Natural r before f x y` — the action `y` does after a recoding what `x` does before it;
* `natural_print` ... `natural_declareClass` — the actions of evaluation are natural.
-/
import Lox.Proofs.Lexical.Semantics
import Lox.Proofs.Recoding.Values

namespace Lox

/-- The reason on its new line. -/
def Abort.recode (r : Recoding) : Abort → Abort
  | .runtime error line => .runtime error (r.line line)
  | abort => abort

/-- The sink if something more was printed before. -/
def Sink.after (before : ByteArray) (sink : Sink) : Sink :=
  { sink with written := before ++ sink.written }

namespace Lexical

variable (r : Recoding) (before : ByteArray)

/-- The instance with other code. -/
def Object.recode (object : Object) : Object :=
  ⟨object.cls.recode r, object.fields.mapValues (Value.recode r)⟩

/-- The world with other code, where something more was printed before. -/
def World.recode (world : World) : World :=
  { world with
    cells := world.cells.map (Option.map (Value.recode r))
    globals := world.globals.mapValues (Value.recode r)
    instances := world.instances.map (Object.recode r)
    sink := world.sink.after before }

/-- The ending with other code in its value. -/
def Ending.recode : Ending → Ending
  | .normal env => .normal env
  | .returned value => .returned (value.recode r)

variable {α β γ δ : Type}

/-- The result of an action with other code. -/
def recodeResult (f : α → β) :
    EStateM.Result Abort World α → EStateM.Result Abort World β
  | .ok a world => .ok (f a) (world.recode r before)
  | .error abort world => .error (abort.recode r) (world.recode r before)

/-- The second action does in a recoded world what the first one does without the recoding;
`f` recodes its value. -/
def Natural (f : α → β) (x : Act α) (y : Act β) : Prop :=
  ∀ world : World, y (world.recode r before) = recodeResult r before f (x world)

variable {r before}

/-! ### Actions -/

theorem natural_pure (f : α → β) (a : α) : Natural r before f (pure a) (pure (f a)) :=
  fun _ => rfl

theorem natural_normal (env : Env) :
    Natural r before (Ending.recode r) (pure (.normal env)) (pure (.normal env)) :=
  fun _ => rfl

theorem natural_returned (value : Value Env) :
    Natural r before (Ending.recode r) (pure (.returned value))
      (pure (.returned (value.recode r))) :=
  fun _ => rfl

theorem natural_literal (value : Literal) :
    Natural r before (Value.recode r) (pure (.ofLiteral value : Value Env))
      (pure (.ofLiteral value)) := by
  intro world
  show EStateM.Result.ok _ _ = EStateM.Result.ok _ _
  rw [Value.recode_ofLiteral]

theorem natural_throw (f : α → β) (abort : Abort) :
    Natural r before f (throw abort) (throw (abort.recode r)) :=
  fun _ => rfl

theorem natural_fail (f : α → β) (error : RuntimeError) (line : Nat) :
    Natural r before f (fail error line) (fail error (r.line line)) :=
  fun _ => rfl

theorem Natural.bind {f : α → β} {g : γ → δ} {x : Act α} {y : Act β} {k : α → Act γ}
    {k' : β → Act δ} (h : Natural r before f x y)
    (hk : ∀ a, Natural r before g (k a) (k' (f a))) :
    Natural r before g (x >>= k) (y >>= k') := by
  intro world
  show EStateM.bind y k' (world.recode r before) =
    recodeResult r before g (EStateM.bind x k world)
  unfold EStateM.bind
  rw [h world]
  cases x world with
  | ok a after => exact hk a after
  | error abort after => rfl

theorem natural_ofExcept (line : Nat) (result : Except RuntimeError (Value Env)) :
    Natural r before (Value.recode r) (ofExcept line result)
      (ofExcept (r.line line) (result.map (Value.recode r))) := by
  cases result with
  | ok value => exact natural_pure _ value
  | error error => exact natural_fail _ error line

theorem natural_newCell (content : Option (Value Env)) :
    Natural r before id (newCell content) (newCell (content.map (Value.recode r))) := by
  intro world
  simp only [newCell, recodeResult, World.recode, Array.size_map, Array.map_push, id_eq]

theorem natural_fill (cell : Nat) (value : Value Env) :
    Natural r before id (fill cell value) (fill cell (value.recode r)) := by
  intro world
  have hmodify : (world.cells.map (Option.map (Value.recode r))).modify cell
        (fun _ => some (value.recode r)) =
      (world.cells.modify cell fun _ => some value).map (Option.map (Value.recode r)) := by
    refine Array.ext_getElem? fun i => ?_
    rw [Array.getElem?_modify, Array.getElem?_map, Array.getElem?_map, Array.getElem?_modify]
    split
    · cases world.cells[i]? <;> rfl
    · rfl
  simp only [fill, recodeResult, World.recode, hmodify, id_eq]

theorem natural_defineGlobal (name : String) (value : Value Env) :
    Natural r before id (defineGlobal name value) (defineGlobal name (value.recode r)) := by
  intro world
  simp only [defineGlobal, recodeResult, World.recode, Bindings.put_mapValues, id_eq]

theorem World.find?_recode (world : World) (env : Env) (name : String) :
    (world.recode r before).find? env name = (world.find? env name).map (Value.recode r) := by
  unfold World.find?
  cases env.cell? name with
  | none => exact Bindings.find?_mapValues _ _ _
  | some cell =>
    simp only [World.recode, Array.getElem?_map]
    cases world.cells[cell]? with
    | none => rfl
    | some content => cases content <;> rfl

theorem natural_look (env : Env) (name : String) :
    Natural r before (Option.map (Value.recode r)) (look env name) (look env name) := by
  intro world
  simp only [look, World.find?_recode, recodeResult]

theorem natural_read (env : Env) (name : Name) :
    Natural r before (Value.recode r) (read env name) (read env (r.name name)) := by
  intro world
  simp only [read, Recoding.name_text, World.find?_recode]
  cases world.find? env name.text <;> rfl

theorem natural_write (env : Env) (name : Name) (value : Value Env) :
    Natural r before id (write env name value)
      (write env (r.name name) (value.recode r)) := by
  intro world
  simp only [write, Recoding.name_text, World.find?_recode, Option.isSome_map]
  split
  -- Where the variable is depends on its name alone.
  · cases env.cell? name.text with
    | some cell => exact natural_fill cell value world
    | none => exact natural_defineGlobal name.text value world
  · rfl

theorem natural_newIdentity : Natural r before id newIdentity newIdentity :=
  fun _ => rfl

theorem natural_newInstance (cls : Class Env) :
    Natural r before id (newInstance cls) (newInstance (cls.recode r)) := by
  intro world
  simp only [newInstance, recodeResult, World.recode, Array.size_map, Array.map_push, id_eq]
  rfl

theorem natural_instanceAt? (address : Nat) :
    Natural r before (Option.map (Object.recode r)) (instanceAt? address)
      (instanceAt? address) := by
  intro world
  simp only [instanceAt?, recodeResult, World.recode, Array.getElem?_map]

theorem natural_setField (address : Nat) (name : String) (value : Value Env) :
    Natural r before id (setField address name value)
      (setField address name (value.recode r)) := by
  intro world
  have hmodify : (world.instances.map (Object.recode r)).modify address
        (fun i => { i with fields := i.fields.put name (value.recode r) }) =
      (world.instances.modify address fun i => { i with fields := i.fields.put name value }).map
        (Object.recode r) := by
    refine Array.ext_getElem? fun i => ?_
    rw [Array.getElem?_modify, Array.getElem?_map, Array.getElem?_map, Array.getElem?_modify]
    split
    · cases world.instances[i]? with
      | none => rfl
      | some object =>
        exact congrArg (fun fields => some (Object.mk (object.cls.recode r) fields))
          (Bindings.put_mapValues _ object.fields name value)
    · rfl
  simp only [setField, recodeResult, World.recode, hmodify, id_eq]

theorem World.className_recode (world : World) :
    (world.recode r before).className = world.className := by
  funext address
  simp only [World.className, World.recode, Array.getElem?_map]
  cases world.instances[address]? with
  | none => rfl
  | some object => exact object.cls.recode_name

theorem write_before (sink : Sink) (bytes : ByteArray) :
    (sink.after before).write bytes =
      ((sink.write bytes).1, (sink.write bytes).2.after before) := by
  obtain ⟨room, written⟩ := sink
  cases room with
  | none => simp only [Sink.after, Sink.write, ByteArray.append_assoc]
  | some room =>
    simp only [Sink.after, Sink.write, ByteArray.append_assoc]
    split <;> rfl

theorem natural_print (value : Value Env) :
    Natural r before id (print value) (print (value.recode r)) := by
  intro world
  simp only [print, Value.text_recode, World.className_recode]
  rw [show (world.recode r before).sink = world.sink.after before from rfl, write_before]
  dsimp only
  split <;> rfl

theorem natural_readClock (host : Host) :
    Natural r before (Value.recode r) (readClock host) (readClock host) :=
  fun _ => rfl

theorem Natural.frame {f : α → β} {x : Act α} {y : Act β} (h : Natural r before f x y)
    (host : Host) (line : Nat) :
    Natural r before f (frame host line x) (frame host (r.line line) y) := by
  intro world
  have hbody : y { world.recode r before with depth := world.depth + 1 } = _ :=
    h { world with depth := world.depth + 1 }
  show (if host.maxDepth.any (· ≤ world.depth) then _ else
    match y { world.recode r before with depth := world.depth + 1 } with
    | .ok b after => _
    | .error abort after => _) = _
  rw [hbody]
  unfold Lexical.frame
  dsimp only
  split
  · rfl
  · cases x { world with depth := world.depth + 1 } <;> rfl

/-! ### Methods, classes and calls -/

theorem natural_bindMethod (method : Closure Env) (this : Nat) :
    Natural r before (Closure.recode r) (bindMethod method this)
      (bindMethod (method.recode r) this) :=
  (natural_newCell (some (.instanceRef this))).bind fun cell =>
    natural_pure (Closure.recode r) { method with env := ("this", cell) :: method.env }

theorem natural_makeFunction (closure : Closure Env) :
    Natural r before (Value.recode r) (makeFunction closure)
      (makeFunction (closure.recode r)) :=
  natural_newIdentity.bind fun identity =>
    natural_pure (Value.recode r) (.function identity closure)

/-- A method that was found is bound. -/
theorem natural_boundMethod (method : Closure Env) (this : Nat) :
    Natural r before (Value.recode r) (bindMethod method this >>= makeFunction)
      (bindMethod (method.recode r) this >>= makeFunction) :=
  (natural_bindMethod method this).bind natural_makeFunction

theorem natural_getProperty (object : Value Env) (name : Name) :
    Natural r before (Value.recode r) (getProperty object name)
      (getProperty (object.recode r) (r.name name)) := by
  cases object with
  | instanceRef address =>
    refine (natural_instanceAt? address).bind fun target => ?_
    cases target with
    | none => exact natural_throw _ _
    | some target =>
      dsimp only [Option.map_some, Object.recode, Recoding.name_text]
      rw [Bindings.find?_mapValues, Class.method?_recode]
      -- Fields come before methods, and both are found under the same names.
      cases target.fields.find? name.text with
      | some value => exact natural_pure _ value
      | none =>
        cases target.cls.method? name.text with
        | some method => exact natural_boundMethod method address
        | none => exact natural_fail _ _ _
  | _ => exact natural_fail _ _ _

theorem natural_getSuper (env : Env) (method : Name) :
    Natural r before (Value.recode r) (getSuper env method)
      (getSuper env (r.name method)) := by
  refine (natural_look env "super").bind fun superclass => ?_
  refine (natural_look env "this").bind fun this => ?_
  cases superclass with
  | none => exact natural_throw _ _
  | some superclass =>
    cases superclass with
    | classObject superclass =>
      cases this with
      | none => exact natural_throw _ _
      | some this =>
        cases this with
        | instanceRef this =>
          dsimp only [Option.map_some, Value.recode, Recoding.name_text]
          rw [Class.method?_recode]
          cases superclass.method? method.text with
          | some found => exact natural_boundMethod found this
          | none => exact natural_fail _ _ _
        | _ => exact natural_throw _ _
    | _ => exact natural_throw _ _

theorem natural_getSuperclass (env : Env) {superclass superclass' : Option Reference}
    (h : superclass'.map Reference.name = superclass.map fun target => r.name target.name) :
    Natural r before (Option.map (Class.recode r)) (getSuperclass env superclass)
      (getSuperclass env superclass') := by
  cases superclass with
  | none =>
    rw [Option.map_eq_none_iff.mp h]
    exact natural_pure _ none
  | some target =>
    obtain ⟨target', rfl, hname⟩ := Option.map_eq_some_iff.mp h
    have hread : Natural r before (Value.recode r) (read env target.name)
        (read env target'.name) := hname ▸ natural_read env target.name
    refine hread.bind fun value => ?_
    cases value with
    | classObject c => exact natural_pure _ (some c)
    | _ =>
      rw [show target'.name.line = r.line target.name.line from congrArg Name.line hname]
      exact natural_fail _ _ _

theorem natural_enter (isLocal : Bool) (env : Env) (name : String) :
    Natural r before id (enter isLocal env name) (enter isLocal env name) := by
  cases isLocal with
  | true => exact (natural_newCell none).bind fun cell => natural_pure id ((name, cell) :: env)
  | false => exact natural_pure id env

theorem natural_settle (isLocal : Bool) (env : Env) (name : String) (value : Value Env) :
    Natural r before id (settle isLocal env name value)
      (settle isLocal env name (value.recode r)) := by
  unfold settle
  cases isLocal with
  | true =>
    cases env.cell? name with
    | some cell => exact natural_fill cell value
    | none => exact natural_defineGlobal name value
  | false => exact natural_defineGlobal name value

theorem natural_declareFunction (isLocal : Bool) (env : Env) (decl : FunctionDecl) :
    Natural r before id (declareFunction isLocal env decl)
      (declareFunction isLocal env (r.decl decl)) := by
  unfold declareFunction
  rw [r.decl_name]
  refine (natural_enter isLocal env decl.name.text).bind fun env => ?_
  refine (natural_makeFunction ⟨decl, env, false⟩).bind fun function => ?_
  exact (natural_settle isLocal env decl.name.text function).bind fun _ => natural_pure id env

/-- The second class is the first one with other code. -/
structure Recoded (r : Recoding) (decl decl' : ClassDecl) : Prop where
  name : decl'.name.text = decl.name.text
  superclass : decl'.superclass.map Reference.name =
    decl.superclass.map fun target => r.name target.name
  methods : decl'.methods = decl.methods.map r.decl

theorem Recoded.classValue {decl decl' : ClassDecl} (h : Recoded r decl decl')
    (superclass : Option (Class Env)) (env : Env) (id : Nat) :
    (classValue decl superclass env id).recode r =
      classValue decl' (superclass.map (Class.recode r)) env id := by
  have hmethods : decl'.methods.map (fun method =>
        (method.name.text, (⟨method, env, method.isInitializer⟩ : Closure Env))) =
      (decl.methods.map fun method =>
        (method.name.text, (⟨method, env, method.isInitializer⟩ : Closure Env))).map
          fun pair => (pair.1, pair.2.recode r) := by
    rw [h.methods, List.map_map, List.map_map]
    refine List.map_congr_left fun method _ => ?_
    simp only [Function.comp_apply, r.decl_name, Recoding.isInitializer_decl, Closure.recode]
  simp only [Lexical.classValue, Value.recode, Class.recode_eq, hmethods,
    Bindings.ofList_mapValues, h.name]

theorem natural_declareClass (isLocal : Bool) (env : Env) {decl decl' : ClassDecl}
    (h : Recoded r decl decl') :
    Natural r before id (declareClass isLocal env decl) (declareClass isLocal env decl') := by
  unfold declareClass
  rw [h.name]
  refine (natural_getSuperclass env h.superclass).bind fun superclass => ?_
  refine (natural_enter isLocal env decl.name.text).bind fun env => ?_
  have hrest : ∀ inside : Env, Natural r before id
      (newIdentity >>= fun identity =>
        settle isLocal env decl.name.text (classValue decl superclass inside identity) >>= fun _ =>
          pure env)
      (newIdentity >>= fun identity =>
        settle isLocal env decl.name.text
          (classValue decl' (superclass.map (Class.recode r)) inside identity) >>=
            fun _ => pure env) := by
    intro inside
    refine natural_newIdentity.bind fun identity => ?_
    have hsettle : Natural r before id _ _ := natural_settle isLocal env decl.name.text
      (classValue decl superclass inside identity)
    rw [h.classValue] at hsettle
    exact hsettle.bind fun _ => natural_pure id env
  cases superclass with
  | none => exact hrest env
  | some c =>
    exact (natural_newCell (some (.classObject c))).bind fun cell => hrest (("super", cell) :: env)

theorem natural_enterEach (env : Env) (pairs : List (String × Value Env)) :
    Natural r before id (enterEach env pairs)
      (enterEach env (pairs.map fun pair => (pair.1, pair.2.recode r))) := by
  induction pairs generalizing env with
  | nil => exact natural_pure id env
  | cons pair pairs ih =>
    obtain ⟨name, value⟩ := pair
    exact (natural_newCell (some value)).bind fun cell => ih ((name, cell) :: env)

theorem natural_repeatWhile (env : Env) {condition condition' : Act (Value Env)}
    {body body' : Act Ending} (hcondition : Natural r before (Value.recode r) condition condition')
    (hbody : Natural r before (Ending.recode r) body body') (fuel : Nat) :
    Natural r before (Ending.recode r) (repeatWhile env condition body fuel)
      (repeatWhile env condition' body' fuel) := by
  induction fuel with
  | zero => exact natural_throw _ .outOfFuel
  | succ fuel ih =>
    refine hcondition.bind fun value => ?_
    rw [Value.isTruthy_recode]
    split
    · refine hbody.bind fun ending => ?_
      cases ending with
      | normal env => exact ih
      | returned value => exact natural_returned value
    · exact natural_normal env

section

variable (host : Host) {execute execute' : Env → Stmt → Act Ending}
  (h : ∀ env f, Natural r before (Ending.recode r) (execEach execute env f.body)
    (execEach execute' env (r.decl f).body))
include h

theorem natural_invoke (closure : Closure Env) (arguments : List (Value Env)) (line : Nat) :
    Natural r before (Value.recode r) (invoke host execute closure arguments line)
      (invoke host execute' (closure.recode r) (arguments.map (Value.recode r))
        (r.line line)) := by
  obtain ⟨decl, env, isInitializer⟩ := closure
  have hpairs : ((r.decl decl).params.map Name.text).zip (arguments.map (Value.recode r)) =
      ((decl.params.map Name.text).zip arguments).map fun pair => (pair.1, pair.2.recode r) := by
    rw [r.decl_params, List.zip_map_right]
    rfl
  unfold invoke
  simp only [Closure.recode, hpairs]
  refine (natural_enterEach env _).bind fun inside => ?_
  refine ((h inside decl).frame host line).bind fun ending => ?_
  cases isInitializer with
  | true =>
    refine (natural_look env "this").bind fun this => ?_
    cases this with
    | none => exact natural_throw _ .dangling
    | some this => exact natural_pure _ this
  | false =>
    cases ending with
    | normal env => exact natural_pure (Value.recode r) .nil
    | returned value => exact natural_pure _ value

theorem natural_construct (cls : Class Env) (arguments : List (Value Env)) (line : Nat) :
    Natural r before (Value.recode r) (construct host execute cls arguments line)
      (construct host execute' (cls.recode r) (arguments.map (Value.recode r))
        (r.line line)) := by
  refine (natural_newInstance cls).bind fun address => ?_
  rw [Class.initializer?_recode]
  cases cls.initializer? with
  | none => exact natural_pure (Value.recode r) (.instanceRef address)
  | some initializer =>
    refine (natural_bindMethod initializer address).bind fun bound => ?_
    refine (natural_invoke host h bound arguments line).bind fun _ => ?_
    exact natural_pure (Value.recode r) (.instanceRef address)

theorem natural_call (callee : Value Env) (arguments : List (Value Env)) (line : Nat) :
    Natural r before (Value.recode r) (call host execute callee arguments line)
      (call host execute' (callee.recode r) (arguments.map (Value.recode r))
        (r.line line)) := by
  unfold call
  rw [Value.arity?_recode, List.length_map]
  cases callee.arity? with
  | none => exact natural_fail _ _ line
  | some arity =>
    dsimp only
    split
    · exact natural_fail _ _ line
    · cases callee with
      | function id closure => exact natural_invoke host h closure arguments line
      | native f =>
        cases f
        exact natural_readClock host
      | classObject cls => exact natural_construct host h cls arguments line
      | _ => exact natural_fail _ _ line

end

end Lexical

end Lox
