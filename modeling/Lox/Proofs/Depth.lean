/-
The bound on active calls is exact, and it shows in nothing else.

A host with a bound refuses the first call for which there is no level left.  A host
without one goes on, so a watch is set on it that stops where one call too many has been
entered.  The two do the same (`Exec.congruence_guarded`), and the watch only matters
for runs in which so many calls are active at once (`Exec.congruence_halted`).

* `Exec.haltBeyond` — the watch that stops a run in a call too many;
* `Exec.NeverExceeds`, `Exec.FirstExceeds` — no call of a run is one too many, or the
  first such call is on a line and is entered by a machine;
* `Exec.never_or_firstExceeds` — it is always one of the two;
* `Session.depth_exact` — what the bound does in a session.
-/
import Lox.Proofs.Output.Fuel
import Lox.Proofs.Restored

namespace Lox

namespace Exec

variable {α β : Type} {limit : Nat} {clock : Nat → Float}

/-- Stops with an abort for the line of the innermost call if so many calls are active
besides it. -/
def haltBeyond (limit : Nat) (abort : Nat → Abort) : Watch
  | [] => pure ()
  | call :: outer => if outer.length < limit then pure () else throw (abort call.line)

theorem haltBeyond_of_le {abort : Nat → Abort} {calls : List Call} (h : calls.length ≤ limit) :
    haltBeyond limit abort calls = pure () := by
  cases calls with
  | nil => rfl
  | cons call outer => exact if_pos h

theorem haltBeyond_of_lt {abort : Nat → Abort} {call : Call} {outer : List Call}
    (h : limit ≤ outer.length) : haltBeyond limit abort (call :: outer) = throw (abort call.line) :=
  if_neg (Nat.not_lt.mpr h)

/-- The depth is the number of active calls, and there are not more than so many. -/
def Counted (limit : Nat) (m : Machine) (calls : List Call) : Prop :=
  m.depth = calls.length ∧ calls.length ≤ limit

/-- Not more than so many calls are active, whatever the depth is. -/
def Within (limit : Nat) (_ : Machine) (calls : List Call) : Prop :=
  calls.length ≤ limit

/-! ### A host with a bound, and a watch on a host without one -/

/-- Within so many calls, which are counted by the depth, the two actions do the same,
and they put the depth back. -/
def SameWithin (limit : Nat) (calls : List Call) (x y : Exec α) : Prop :=
  calls.length ≤ limit → ∀ m, m.depth = calls.length →
    x m = y m ∧ (Machine.left (y m)).depth = m.depth

theorem SameWithin.bind {calls : List Call} {x y : Exec α} {f g : α → Exec β}
    (h : SameWithin limit calls x y) (hfg : ∀ a, SameWithin limit calls (f a) (g a)) :
    SameWithin limit calls (x >>= f) (y >>= g) := by
  intro hle m hm
  obtain ⟨hsame, hdepth⟩ := h hle m hm
  cases hy : y m with
  | ok a m₁ =>
    rw [hy] at hdepth
    -- the depth was put back, so the second action starts with it too
    have hm₁ : m₁.depth = calls.length := hdepth.trans hm
    obtain ⟨hthen, hdepth'⟩ := hfg a hle m₁ hm₁
    rw [bind_ok (hsame.trans hy), bind_ok hy]
    exact ⟨hthen, hdepth'.trans hdepth⟩
  | error abort m₁ =>
    rw [hy] at hdepth
    rw [bind_error (hsame.trans hy), bind_error hy]
    exact ⟨rfl, hdepth⟩

theorem SameWithin.inScope {calls : List Call} {x y : Exec α} (h : SameWithin limit calls x y)
    (scope : ScopeAddress) : SameWithin limit calls (inScope scope x) (inScope scope y) := by
  intro hle m hm
  obtain ⟨hsame, hdepth⟩ := h hle { m with scope := scope } hm
  rw [inScope_eq, inScope_eq, hsame, left_leaving]
  exact ⟨rfl, hdepth⟩

/-- A host without a bound lets every call in. -/
theorem enter_unbounded (watch : Watch) (call : Call) (calls : List Call) (x : Exec α)
    (m : Machine) :
    enter ⟨none, clock⟩ watch call calls x m =
      leaving (fun m' => { m' with depth := m'.depth - 1 })
        ((watch (call :: calls) >>= fun _ => x) { m with depth := m.depth + 1 }) :=
  frame_of_not_full call.line _ rfl

/-- A call too many is entered and left at once. -/
theorem enter_halted (abort : Nat → Abort) (call : Call) {calls : List Call} (x : Exec α)
    (m : Machine) (h : limit ≤ calls.length) :
    enter ⟨none, clock⟩ (haltBeyond limit abort) call calls x m = .error (abort call.line) m := by
  rw [enter_unbounded, haltBeyond_of_lt h]
  rfl

/-- With a bound there is no level left for a call if as many are active. -/
theorem enter_refused (watch : Watch) (call : Call) {calls : List Call} (x : Exec α)
    {m : Machine} (hm : m.depth = calls.length) (h : limit ≤ calls.length) :
    enter ⟨some limit, clock⟩ watch call calls x m =
      .error (.runtime .stackOverflow call.line) m := by
  have hfull : (some limit).any (· ≤ m.depth) = true := by
    rw [hm]
    exact decide_eq_true h
  exact frame_of_full call.line _ hfull

/-- Otherwise the bound makes no difference. -/
theorem enter_admitted (watch : Watch) (call : Call) {calls : List Call} (x : Exec α)
    {m : Machine} (hm : m.depth = calls.length) (h : calls.length < limit) :
    enter ⟨some limit, clock⟩ watch call calls x m =
      enter ⟨none, clock⟩ watch call calls x m := by
  have hfree : (some limit).any (· ≤ m.depth) = false := by
    rw [hm]
    exact decide_eq_false (Nat.not_le.mpr h)
  rw [enter_unbounded]
  exact frame_of_not_full call.line _ hfree

theorem SameWithin.enter {watch : Watch} (hwatch : IdleWhere (Counted limit) watch)
    {calls : List Call} {x y : Exec α} (call : Call) (h : SameWithin limit (call :: calls) x y) :
    SameWithin limit calls (enter ⟨some limit, clock⟩ watch call calls x)
      (enter ⟨none, clock⟩ (haltBeyond limit (.runtime .stackOverflow)) call calls y) := by
  intro hle m hm
  by_cases hfull : limit ≤ calls.length
  · -- the call is refused by the host on the one side, by the watch on the other
    rw [enter_refused watch call x hm hfull, enter_halted _ call y m hfull]
    exact ⟨rfl, rfl⟩
  · have hlevel : (call :: calls).length ≤ limit := by
      rw [List.length_cons]
      omega
    have hinner : m.depth + 1 = (call :: calls).length := by rw [hm, List.length_cons]
    obtain ⟨hsame, hdepth⟩ := h hlevel { m with depth := m.depth + 1 } hinner
    -- neither watch does anything in this call
    have hpass : (watch (call :: calls) >>= fun _ => x) { m with depth := m.depth + 1 } =
        x { m with depth := m.depth + 1 } := bind_ok (hwatch _ _ ⟨hinner, hlevel⟩)
    rw [enter_admitted watch call x hm (by omega), enter_unbounded, enter_unbounded, hpass,
      haltBeyond_of_le hlevel, pure_bind, hsame, left_leaving]
    refine ⟨rfl, ?_⟩
    show (Machine.left (y { m with depth := m.depth + 1 })).depth - 1 = m.depth
    rw [hdepth]
    rfl

/-- A host with a bound on active calls does what a host without one does under the watch
that stops beyond the bound.  As long as the depth is the number of active calls and
within the bound, no other watch is noticed. -/
theorem congruence_guarded (clock : Nat → Float) {watch : Watch}
    (hwatch : IdleWhere (Counted limit) watch) :
    Congruence ⟨some limit, clock⟩ ⟨none, clock⟩ watch
      (haltBeyond limit (.runtime .stackOverflow))
      (fun calls _ x y => SameWithin limit calls x y) where
  clock := rfl
  watched calls := by
    intro hle m hm
    rw [hwatch m calls ⟨hm, hle⟩, haltBeyond_of_le hle]
    exact ⟨rfl, rfl⟩
  quiet hx := fun _ m _ => ⟨rfl, hx.depth m⟩
  print value := fun _ m _ => ⟨rfl, congrArg Prod.snd (restores_print value m)⟩
  bind hx hf := hx.bind hf
  inScope scope hx := hx.inScope scope
  enter call hx := hx.enter hwatch call

/-- The same for programs: they are run while no call is active. -/
theorem runIn_guarded {watch : Watch} (hwatch : IdleWhere (Counted limit) watch) (fuel : Nat)
    (p : Program) {m : Machine} (hm : m.depth = 0) :
    runIn ⟨some limit, clock⟩ watch fuel p m =
      runIn ⟨none, clock⟩ (haltBeyond limit (.runtime .stackOverflow)) fuel p m := by
  have c := congruence_guarded clock hwatch
  exact (c.runIn c.noSlack fuel p (Nat.zero_le limit) m hm).1

theorem runProgram_guarded (fuel : Nat) (p : Program) {m : Machine} (hm : m.depth = 0) :
    runProgram ⟨some limit, clock⟩ fuel p m =
      runIn ⟨none, clock⟩ (haltBeyond limit (.runtime .stackOverflow)) fuel p m := by
  rw [← runIn_guarded (idleWhere_idleWatch _) fuel p hm, runIn_unwatched]

/-- The depth is the number of active calls all through a run, and within the bound. -/
theorem always_counted (limit : Nat) (clock : Nat → Float) (fuel : Nat) (p : Program) {m : Machine}
    (hm : m.depth = 0) :
    AlwaysIn ⟨some limit, clock⟩ fuel p m (Counted limit) := by
  intro watch hwatch
  rw [runIn_guarded hwatch fuel p hm, runProgram_guarded fuel p hm]

/-! ### Runs with too many calls -/

/-- At no moment of the run are more calls active. -/
def NeverExceeds (limit : Nat) (host : Host) (fuel : Nat) (p : Program) (m : Machine) : Prop :=
  AlwaysIn host fuel p m (Within limit)

/-- The first call that is active besides so many others has its closing parenthesis on
this line, and this machine enters it: whatever a watch stops with then, the run is
stopped there. -/
def FirstExceeds (limit : Nat) (host : Host) (fuel : Nat) (p : Program) (m : Machine)
    (line : Nat) (m' : Machine) : Prop :=
  ∀ abort, runIn host (haltBeyond limit abort) fuel p m = .error (abort line) m'

/-- The actions do the same, or the second one is stopped by the watch for a call too
many.  Then so is the first one if it is watched like that. -/
def SameOrHalted (limit : Nat) (watch : Watch) (abort : Nat → Abort) (x y : Exec α) : Prop :=
  ∀ m, x m = y m ∨ ∃ line m', y m = .error (abort line) m' ∧
    ∀ other, watch = haltBeyond limit other → x m = .error (other line) m'

variable {watch : Watch} {abort : Nat → Abort}

theorem SameOrHalted.refl (x : Exec α) : SameOrHalted limit watch abort x x :=
  fun _ => .inl rfl

theorem SameOrHalted.bind {x y : Exec α} {f g : α → Exec β} (h : SameOrHalted limit watch abort x y)
    (hfg : ∀ a, SameOrHalted limit watch abort (f a) (g a)) :
    SameOrHalted limit watch abort (x >>= f) (y >>= g) := by
  intro m
  rcases h m with hsame | ⟨line, m', hy, hx⟩
  · cases hy : y m with
    | ok a m₁ =>
      rw [bind_ok (hsame.trans hy), bind_ok hy]
      exact hfg a m₁
    | error stopped m₁ =>
      rw [bind_error (hsame.trans hy), bind_error hy]
      exact .inl rfl
  · exact .inr ⟨line, m', bind_error hy, fun other hother => bind_error (hx other hother)⟩

/-- The machine is put into another place before both actions and back after them. -/
theorem SameOrHalted.moved {x y x' y' : Exec α} (h : SameOrHalted limit watch abort x y)
    (go : Machine → Machine) (back : Machine → Machine → Machine)
    (hx : ∀ m, x' m = leaving (back m) (x (go m))) (hy : ∀ m, y' m = leaving (back m) (y (go m))) :
    SameOrHalted limit watch abort x' y' := by
  intro m
  rw [hx, hy]
  rcases h (go m) with hsame | ⟨line, m', hyhalt, hxhalt⟩
  · rw [hsame]
    exact .inl rfl
  · refine .inr ⟨line, back m m', ?_, fun other hother => ?_⟩
    · rw [hyhalt]
      rfl
    · rw [hxhalt other hother]
      rfl

/-- The two watches themselves: they differ in calls too many, and there the second one
stops. -/
theorem sameOrHalted_watch (hwatch : IdleWhere (Within limit) watch)
    (abort : Nat → Abort) (calls : List Call) :
    SameOrHalted limit watch abort (watch calls) (haltBeyond limit abort calls) := by
  intro m
  by_cases hle : calls.length ≤ limit
  · rw [hwatch m calls hle, haltBeyond_of_le hle]
    exact .inl rfl
  · cases calls with
    | nil => exact absurd (Nat.zero_le limit) hle
    | cons call outer =>
      have hlt : limit ≤ outer.length := by
        rw [List.length_cons] at hle
        omega
      refine .inr ⟨call.line, m, ?_, fun other hother => ?_⟩
      · rw [haltBeyond_of_lt hlt]
        rfl
      · rw [hother, haltBeyond_of_lt hlt]
        rfl

/-- On a host without a bound a watch that does nothing within so many calls is compared
with the one that stops in the next one. -/
theorem congruence_halted (clock : Nat → Float) (hwatch : IdleWhere (Within limit) watch)
    (abort : Nat → Abort) :
    Congruence ⟨none, clock⟩ ⟨none, clock⟩ watch (haltBeyond limit abort)
      (fun _ _ x y => SameOrHalted limit watch abort x y) where
  clock := rfl
  watched := sameOrHalted_watch hwatch abort
  quiet _ := .refl _
  print _ := .refl _
  bind hx hf := hx.bind hf
  inScope scope hx := hx.moved (fun m => { m with scope := scope })
    (fun m m' => { m' with scope := m.scope }) (inScope_eq scope _) (inScope_eq scope _)
  enter call hx := ((sameOrHalted_watch hwatch abort _).bind fun _ => hx).moved
    (fun m => { m with depth := m.depth + 1 }) (fun _ m' => { m' with depth := m'.depth - 1 })
    (enter_unbounded watch call _ _) (enter_unbounded _ call _ _)

theorem sameOrHalted_runIn (hwatch : IdleWhere (Within limit) watch)
    (abort : Nat → Abort) (fuel : Nat) (p : Program) :
    SameOrHalted limit watch abort (runIn ⟨none, clock⟩ watch fuel p)
      (runIn ⟨none, clock⟩ (haltBeyond limit abort) fuel p) := by
  have c := congruence_halted clock hwatch abort
  exact c.runIn c.noSlack fuel p

theorem idleWhere_haltBeyond (abort : Nat → Abort) :
    IdleWhere (Within limit) (haltBeyond limit abort) := by
  intro m calls hle
  rw [haltBeyond_of_le hle]
  rfl

variable {fuel : Nat} {p : Program} {m : Machine}

/-- Two watches that stop with different aborts stop at the same call, if they stop. -/
theorem halted_alike (abort abort' : Nat → Abort) :
    runIn ⟨none, clock⟩ (haltBeyond limit abort) fuel p m =
        runIn ⟨none, clock⟩ (haltBeyond limit abort') fuel p m ∨
      ∃ line m', runIn ⟨none, clock⟩ (haltBeyond limit abort') fuel p m = .error (abort' line) m' ∧
        runIn ⟨none, clock⟩ (haltBeyond limit abort) fuel p m = .error (abort line) m' := by
  rcases sameOrHalted_runIn (idleWhere_haltBeyond abort) abort' fuel p m with
    hsame | ⟨line, m', hsecond, hfirst⟩
  · exact .inl hsame
  · exact .inr ⟨line, m', hsecond, hfirst abort rfl⟩

/-- A run that ends alike under two watches whose aborts are never the same was stopped by
neither of them. -/
theorem neverExceeds_of_eq
    (h : runIn ⟨none, clock⟩ (haltBeyond limit (.runtime .stackOverflow)) fuel p m =
      runIn ⟨none, clock⟩ (haltBeyond limit (.runtime .notCallable)) fuel p m) :
    NeverExceeds limit ⟨none, clock⟩ fuel p m := by
  have key : ∀ watch, IdleWhere (Within limit) watch → runIn ⟨none, clock⟩ watch fuel p m =
      runIn ⟨none, clock⟩ (haltBeyond limit (.runtime .stackOverflow)) fuel p m := by
    intro watch hwatch
    rcases sameOrHalted_runIn hwatch (.runtime .stackOverflow) fuel p m with
      hsame | ⟨line, m₁, hoverflow, -⟩
    · exact hsame
    rcases sameOrHalted_runIn hwatch (.runtime .notCallable) fuel p m with
      hsame | ⟨line', m₂, hother, -⟩
    · exact hsame.trans h.symm
    -- it cannot have been stopped with both aborts
    have hboth := hoverflow.symm.trans (h.trans hother)
    cases hboth
  intro watch hwatch
  rw [key watch hwatch, ← runIn_unwatched, key idleWatch (idleWhere_idleWatch _)]

/-- A run that does not was stopped by both of them, and so is stopped by every other. -/
theorem firstExceeds_of_ne
    (h : runIn ⟨none, clock⟩ (haltBeyond limit (.runtime .stackOverflow)) fuel p m ≠
      runIn ⟨none, clock⟩ (haltBeyond limit (.runtime .notCallable)) fuel p m) :
    ∃ line m', FirstExceeds limit ⟨none, clock⟩ fuel p m line m' := by
  rcases halted_alike (.runtime .stackOverflow) (.runtime .notCallable) with
    hsame | ⟨line, m', hother, hoverflow⟩
  · exact absurd hsame h
  refine ⟨line, m', fun abort => ?_⟩
  -- whatever the abort is, it is not the same as both of the two
  rcases halted_alike abort (.runtime .stackOverflow) with hsame | ⟨line', m'', hfirst, hthis⟩
  · rcases halted_alike abort (.runtime .notCallable) with hsame' | ⟨line', m'', hsecond, hthis⟩
    · exact absurd (hsame.symm.trans hsame') h
    · cases hother.symm.trans hsecond
      exact hthis
  · cases hoverflow.symm.trans hfirst
    exact hthis

theorem never_or_firstExceeds (limit : Nat) (clock : Nat → Float) (fuel : Nat) (p : Program)
    (m : Machine) :
    NeverExceeds limit ⟨none, clock⟩ fuel p m ∨
      ∃ line m', FirstExceeds limit ⟨none, clock⟩ fuel p m line m' := by
  by_cases h : runIn ⟨none, clock⟩ (haltBeyond limit (.runtime .stackOverflow)) fuel p m =
      runIn ⟨none, clock⟩ (haltBeyond limit (.runtime .notCallable)) fuel p m
  · exact .inl (neverExceeds_of_eq h)
  · exact .inr (firstExceeds_of_ne h)

/-- A run without too many calls is the same with and without the bound. -/
theorem NeverExceeds.runProgram_eq
    (h : NeverExceeds limit ⟨none, clock⟩ fuel p m) (hm : m.depth = 0) :
    runProgram ⟨some limit, clock⟩ fuel p m = runProgram ⟨none, clock⟩ fuel p m := by
  rw [runProgram_guarded fuel p hm]
  exact h _ (idleWhere_haltBeyond _)

/-- With the bound a run ends where the first call too many would be entered, and has
enough fuel then. -/
theorem FirstExceeds.runProgram_eq {more line : Nat} {m' : Machine}
    (h : FirstExceeds limit ⟨none, clock⟩ fuel p m line m') (hm : m.depth = 0)
    (hle : fuel ≤ more) :
    runProgram ⟨some limit, clock⟩ more p m = .error (.runtime .stackOverflow line) m' := by
  have hfirst : runProgram ⟨some limit, clock⟩ fuel p m =
      .error (.runtime .stackOverflow line) m' := by
    rw [runProgram_guarded fuel p hm]
    exact h _
  rcases continues_runProgram ⟨some limit, clock⟩ hle p m with hsame | ⟨m₁, hcut, -⟩
  · exact hsame.symm.trans hfirst
  · cases hcut.symm.trans hfirst

end Exec

namespace Session

/-- The bound on active calls is exact, and it shows in nothing else; this holds for any
bound, as for `maxCallDepth`.  After any steps no call is active.  All through the run of an
accepted program the depth is the number of active calls, and not above the bound.  On a
host without the bound either the run never has more calls active, and then it is the same
as with the bound; or there is a first call that is one too many, and then with the bound
the run ends there with a stack overflow on the line of that call, after it has printed the
same. -/
theorem depth_exact (limit : Nat) (clock : Nat → Float) (sink : Sink) (steps : List Step) :
    let guarded : Host := ⟨some limit, clock⟩
    let free : Host := ⟨none, clock⟩
    let session := (start sink).after guarded steps
    session.machine.depth = 0 ∧
      ∀ source p, (session.check source).1 = .ok p →
        let m := session.machine.prepared p
        (∀ fuel, Exec.AlwaysIn guarded fuel p m fun m calls =>
          m.depth = calls.length ∧ calls.length ≤ limit) ∧
        (∀ fuel, Exec.NeverExceeds limit free fuel p m ∨
          ∃ line m', Exec.FirstExceeds limit free fuel p m line m') ∧
        (∀ fuel, Exec.NeverExceeds limit free fuel p m →
          session.run guarded fuel source = session.run free fuel source) ∧
        ∀ fuel line m', Exec.FirstExceeds limit free fuel p m line m' →
          ∀ more, fuel ≤ more → (session.run guarded more source).1 =
            ⟨m'.sink.written, some (.aborted (.runtime .stackOverflow line))⟩ := by
  intro guarded free session
  have hreachable : Reachable guarded session := (Reachable.start sink).after steps
  have hdepth : session.machine.depth = 0 := congrArg Prod.snd hreachable.place
  refine ⟨hdepth, fun source p hchecked => ?_⟩
  intro m
  refine ⟨fun fuel => Exec.always_counted limit clock fuel p hdepth,
    fun fuel => Exec.never_or_firstExceeds limit clock fuel p m, fun fuel hnever => ?_,
    fun fuel line m' hfirst more hle => ?_⟩
  · rw [run_of_check fuel hchecked, run_of_check fuel hchecked, Machine.run_eq, Machine.run_eq,
      hnever.runProgram_eq hdepth]
  · rw [run_of_check more hchecked, Machine.run_eq, hfirst.runProgram_eq hdepth hle]
    rfl

/-- One call may be active.  A function that calls itself is stopped in the second call,
which is on the second line; where it does not, the bound is not noticed. -/
theorem depth_exact_recursion :
    let clock : Nat → Float := fun _ => 0
    let guarded : Host := ⟨some 1, clock⟩
    let free : Host := ⟨none, clock⟩
    let session := (start (.ofLimit none)).after guarded
      [.run 20 "fun f(again)\n{print nil; if (again) f(again);}"]
    (∃ p, (session.check "f(true);").1 = .ok p ∧ ∃ m',
      Exec.FirstExceeds 1 free 20 p (session.machine.prepared p) 2 m' ∧
      (session.run guarded 30 "f(true);").1 =
        ⟨m'.sink.written, some (.aborted (.runtime .stackOverflow 2))⟩) ∧
    ∃ p, (session.check "f(false);").1 = .ok p ∧
      Exec.NeverExceeds 1 free 20 p (session.machine.prepared p) ∧
      session.run guarded 20 "f(false);" = session.run free 20 "f(false);" := by
  intro clock guarded free session
  have hexact := (depth_exact 1 clock (.ofLimit none)
    [.run 20 "fun f(again)\n{print nil; if (again) f(again);}"]).2
  have haccepted : ∀ source, (session.check source).1.toOption.isSome = true →
      ∃ p, (session.check source).1 = .ok p := by
    intro source h
    cases hchecked : (session.check source).1 with
    | ok p => exact ⟨p, rfl⟩
    | error diagnostics =>
      rw [hchecked] at h
      cases h
  constructor
  · obtain ⟨p, hp⟩ := haccepted "f(true);" (by decide +kernel)
    obtain ⟨-, heither, hnever, hfirst⟩ := hexact "f(true);" p hp
    have hguarded : (session.run guarded 20 "f(true);").1.failure.bind Failure.abort? =
        some (.runtime .stackOverflow 2) := by decide +kernel
    have hfree : (session.run free 20 "f(true);").1.failure.bind Failure.abort? =
        some .outOfFuel := by decide +kernel
    rcases heither 20 with h | ⟨line, m', h⟩
    -- without the bound the recursion only ends for lack of fuel
    · rw [hnever 20 h, hfree] at hguarded
      cases hguarded
    · have hline : line = 2 := by
        rw [hfirst 20 line m' h 20 (Nat.le_refl 20)] at hguarded
        cases hguarded
        rfl
      subst hline
      exact ⟨p, hp, m', h, hfirst 20 2 m' h 30 (by decide)⟩
  · obtain ⟨p, hp⟩ := haccepted "f(false);" (by decide +kernel)
    obtain ⟨-, heither, hnever, hfirst⟩ := hexact "f(false);" p hp
    have hguarded : (session.run guarded 20 "f(false);").1.failure.bind Failure.abort? = none := by
      decide +kernel
    rcases heither 20 with h | ⟨line, m', h⟩
    · exact ⟨p, hp, h, hnever 20 h⟩
    · rw [hfirst 20 line m' h 20 (Nat.le_refl 20)] at hguarded
      cases hguarded

end Session

end Lox
