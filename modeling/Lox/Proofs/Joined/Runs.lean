/-
Programs that are run one after the other, or as one.

* `runEach` — runs things up to the first that fails;
* `World.run_flatten` — a world that runs several programs as one agrees with one that
  runs them one after the other;
* `SameUpTo` — two worlds are the same after relabellings, and they stay so when they
  run the same program, `SameUpTo.run`.
-/
import Lox.Proofs.Lexical.Relabelled
import Lox.Proofs.Lexical.Sessions

namespace Lox

/-- Runs one thing after the other, up to the first that fails.  What they print is put
together. -/
def runEach {σ ι : Type} (run : σ → ι → Outcome × σ) : σ → List ι → Outcome × σ
  | state, [] => (⟨.empty, none⟩, state)
  | state, i :: rest =>
    let (outcome, next) := run state i
    match outcome.failure with
    | some _ => (outcome, next)
    | none =>
      let (others, final) := runEach run next rest
      (⟨outcome.output ++ others.output, others.failure⟩, final)

/-- The failure on its new line. -/
def Failure.relabel (r : Relabelling) : Failure → Failure
  | .faulty diagnostics => .faulty diagnostics
  | .aborted abort => .aborted (abort.relabel r)

/-- The outcome with its failure on a new line. -/
def Outcome.relabel (r : Relabelling) (outcome : Outcome) : Outcome :=
  { outcome with failure := outcome.failure.map (Failure.relabel r) }

theorem Abort.relabel_anonymous (abort : Abort) : abort.relabel .anonymous = abort := by
  cases abort <;> rfl

theorem Outcome.relabel_anonymous (outcome : Outcome) : outcome.relabel .anonymous = outcome := by
  obtain ⟨output, failure⟩ := outcome
  cases failure with
  | none => rfl
  | some failure =>
    cases failure with
    | faulty diagnostics => rfl
    | aborted abort => simp only [relabel, Option.map_some, Failure.relabel, abort.relabel_anonymous]

/-- What every single run keeps is kept to the end. -/
theorem runEach_relabel {r : Relabelling} {σ τ ι κ : Type} {run : σ → ι → Outcome × σ}
    {run' : τ → κ → Outcome × τ} {R : σ → τ → Prop} {S : ι → κ → Prop}
    (hstep : ∀ {s t i j}, R s t → S i j →
      (run s i).1 = (run' t j).1.relabel r ∧ R (run s i).2 (run' t j).2)
    {s : σ} {t : τ} (h : R s t) {is : List ι} {js : List κ} (hs : List.Forall₂ S is js) :
    (runEach run s is).1 = (runEach run' t js).1.relabel r ∧
      R (runEach run s is).2 (runEach run' t js).2 := by
  induction hs generalizing s t with
  | nil => exact ⟨rfl, h⟩
  | @cons i j is js hfirst _ ih =>
    obtain ⟨houtcome, hnext⟩ := hstep h hfirst
    rw [runEach, runEach]
    generalize run s i = left at houtcome hnext
    obtain ⟨outcome, next⟩ := left
    cases houtcome
    cases hfailure : (run' t j).1.failure with
    | none =>
      obtain ⟨hothers, hfinal⟩ := ih hnext
      simp only [Outcome.relabel, hfailure, Option.map_none]
      refine ⟨?_, hfinal⟩
      rw [hothers]
      rfl
    | some failure =>
      simp only [Outcome.relabel, hfailure, Option.map_some, true_and]
      exact hnext

namespace Lexical

variable {r : Relabelling} {before : ByteArray} {host : Host}

theorem World.prepared_relabel (world : World) :
    (world.relabel r before).prepared = world.prepared.relabel r .empty := by
  simp only [prepared, relabel, Sink.after, ByteArray.empty_append]

/-- What was printed by a run was printed before the next one. -/
theorem World.relabel_eq (world : World) :
    world.relabel r before = world.prepared.relabel r (before ++ world.sink.written) := by
  simp only [prepared, relabel, Sink.after, ByteArray.append_empty]

theorem World.outcome_relabelResult (result : EStateM.Result Abort World Unit) :
    outcome (relabelResult r before id result) =
      (⟨before ++ (outcome result).1.output, ((outcome result).1.relabel r).failure⟩,
        (outcome result).2.relabel r before) := by
  cases result <;> rfl

/-- The worlds are the same after these relabellings, apart from what was printed. -/
def SameUpTo (r s : Relabelling) (w w' : World) : Prop :=
  w.prepared.relabel r .empty = w'.prepared.relabel s .empty

/-- A program that is run in a relabelled world. -/
theorem World.outcome_relabel (host : Host) (fuel : Nat) (p : Program) (w : World) :
    outcome (runProgram host fuel (p.relabel r) (w.prepared.relabel r .empty)) =
      ((w.run host fuel p).1.relabel r, (w.run host fuel p).2.relabel r .empty) := by
  rw [runProgram_relabel, outcome_relabelResult, ByteArray.empty_append, World.run_eq]
  rfl

theorem SameUpTo.run {s : Relabelling} {w w' : World} (h : SameUpTo r s w w') {p q : Program}
    (hp : p.relabel r = q.relabel s) (host : Host) (fuel : Nat) :
    (w.run host fuel p).1.relabel r = (w'.run host fuel q).1.relabel s ∧
      SameUpTo r s (w.run host fuel p).2 (w'.run host fuel q).2 := by
  have hleft := World.outcome_relabel (r := r) host fuel p w
  rw [h, hp, World.outcome_relabel] at hleft
  obtain ⟨houtcome, hworld⟩ := Prod.mk.inj hleft
  refine ⟨houtcome.symm, ?_⟩
  rw [SameUpTo, ← World.prepared_relabel, ← World.prepared_relabel, hworld]

theorem runProgram_append (fuel : Nat) (p q : Program) :
    runProgram host fuel (p ++ q) = runProgram host fuel p >>= fun _ => runProgram host fuel q := by
  induction p with
  | nil => rfl
  | cons s p ih =>
    show (exec host fuel false [] s >>= fun _ => runProgram host fuel (p ++ q)) =
      (exec host fuel false [] s >>= fun _ => runProgram host fuel p) >>= fun _ =>
        runProgram host fuel q
    rw [ih, bind_assoc]

/-- A run of all programs, one after the other, as one run of a single program. -/
theorem runProgram_flatten (host : Host) (fuel : Nat) (programs : List Program) (w : World)
    (before : ByteArray) :
    let each := runEach (World.run host fuel) w programs
    let whole := World.outcome (runProgram host fuel (Program.relabel r programs.flatten)
      (w.prepared.relabel r before))
    whole.1 = ⟨before ++ each.1.output, (each.1.relabel r).failure⟩ ∧
      whole.2.prepared = each.2.prepared.relabel r .empty := by
  induction programs generalizing w before with
  | nil =>
    refine ⟨?_, World.prepared_relabel w.prepared⟩
    show Outcome.mk (before ++ .empty) none = Outcome.mk (before ++ .empty) none
    rfl
  | cons p programs ih =>
    intro each whole
    have hwhole : whole = World.outcome (EStateM.bind (runProgram host fuel (p.relabel r))
        (fun _ => runProgram host fuel (Program.relabel r programs.flatten))
          (w.prepared.relabel r before)) := by
      show World.outcome _ = _
      rw [List.flatten_cons, Program.relabel_append, runProgram_append]
      rfl
    unfold EStateM.bind at hwhole
    rw [runProgram_relabel] at hwhole
    have heach : each = runEach (World.run host fuel) w (p :: programs) := rfl
    rw [runEach, World.run_eq] at heach
    cases hresult : runProgram host fuel p w.prepared with
    | ok a after =>
      rw [hresult] at hwhole heach
      simp only [World.outcome] at heach
      dsimp only [relabelResult] at hwhole
      obtain ⟨houtcome, hworld⟩ := ih after (before ++ after.sink.written)
      rw [World.relabel_eq] at hwhole
      rw [hwhole, heach]
      refine ⟨?_, hworld⟩
      rw [houtcome, ByteArray.append_assoc]
      rfl
    | error abort after =>
      rw [hresult] at hwhole heach
      simp only [relabelResult, World.outcome] at hwhole heach
      rw [hwhole, heach]
      exact ⟨rfl, World.prepared_relabel after⟩

/-- A world that runs programs as one, and one that runs them one after the other. -/
theorem World.run_flatten (r : Relabelling) (host : Host) (fuel : Nat) (world : World)
    (programs : List Program) :
    (world.run host fuel programs.flatten).1.relabel r =
        (runEach (World.run host fuel) world programs).1.relabel r ∧
      SameUpTo r r (world.run host fuel programs.flatten).2
        (runEach (World.run host fuel) world programs).2 := by
  obtain ⟨houtcome, hworld⟩ := runProgram_flatten (r := r) host fuel programs world .empty
  rw [World.outcome_relabel] at houtcome hworld
  rw [World.prepared_relabel] at hworld
  refine ⟨houtcome.trans ?_, hworld⟩
  rw [ByteArray.empty_append]
  rfl

/-! ### Global variables -/

/-- What a global variable prints in a world. -/
def World.shown? (world : World) (name : String) : Option String :=
  (world.globals.find? name).map (Value.text world.className)

theorem World.shown?_relabel (world : World) (name : String) :
    (world.prepared.relabel r .empty).shown? name = world.shown? name := by
  have htext : (Value.text world.className : Value Env → String) ∘ Value.recode r.recoding =
      Value.text world.className := funext (Value.text_recode world.className)
  rw [shown?, ← recode_recoding, className_recode]
  show ((world.globals.mapValues (Value.recode r.recoding)).find? name).map
    (Value.text world.className) = _
  rw [Bindings.find?_mapValues, Option.map_map, htext]
  rfl

end Lexical

end Lox
