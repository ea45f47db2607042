/-
Evaluation that does what another evaluation did, if it has enough fuel.

Two evaluations of look-alike code need not use up the same fuel, and the worlds that they
leave have look-alike code in them.  So only the first one has a given fuel, with which it
comes to an end; the second one comes to the same end from some fuel on.

* `Settles y world result` — with enough fuel the action has this result;
* `Follows r f x y` — what `x` does in a world, `y` does with enough fuel in every world
  with other code in it, up to the recoding `r`;
* `Follows.bind` ... `follows_call` — actions of evaluation follow one another.
-/
import Mathlib
import Lox.Proofs.Lexical.Recoded

namespace Lox.Lexical

variable {α β : Type}

/-- The run was cut short. -/
def OutOfFuel (result : EStateM.Result Abort World α) : Prop :=
  ∃ world, result = .error .outOfFuel world

/-- With enough fuel the action has this result in the world. -/
def Settles (y : Nat → Act α) (world : World) (result : EStateM.Result Abort World α) : Prop :=
  ∃ least, ∀ fuel, least ≤ fuel → y fuel world = result

/-- What the first action does in a world without running out of fuel, the second one does
with enough fuel in a world with other code in it; `f` recodes the values. -/
def Follows (r : Recoding) (f : α → α) (x : Act α) (y : Nat → Act α) : Prop :=
  ∀ world world' : World, world.recode r .empty = world'.recode r .empty →
    ¬ OutOfFuel (x world) → ∃ result, Settles y world' result ∧
      recodeResult r .empty f result = recodeResult r .empty f (x world)

variable {r : Recoding} {f : α → α} {g : β → β} {x x' z z' : Act α} {y : Nat → Act α}

theorem follows_outOfFuel : Follows r f (throw .outOfFuel) y :=
  fun world _ _ h => absurd ⟨world, rfl⟩ h

/-- Actions that become the same by the recoding follow one another. -/
theorem Follows.of_natural (h : Natural r .empty f x z) (h' : Natural r .empty f x' z')
    (hz : z = z') : Follows r f x fun _ => x' := by
  subst hz
  intro world world' hworlds _
  refine ⟨x' world', ⟨0, fun _ _ => rfl⟩, ?_⟩
  rw [← h' world', ← hworlds, h world]

/-- Fuel that is spent at once does not matter. -/
theorem Follows.succ (h : Follows r f x fun fuel => y (fuel + 1)) : Follows r f x y := by
  intro world world' hworlds hends
  obtain ⟨result, ⟨least, hleast⟩, hresult⟩ := h world world' hworlds hends
  refine ⟨result, ⟨least + 1, fun fuel hfuel => ?_⟩, hresult⟩
  obtain ⟨fuel, rfl⟩ : ∃ n, fuel = n + 1 := ⟨fuel - 1, by omega⟩
  exact hleast fuel (by omega)

theorem Follows.shift (h : Follows r f x y) : Follows r f x fun fuel => y (fuel + 1) := by
  intro world world' hworlds hends
  obtain ⟨result, ⟨least, hleast⟩, hresult⟩ := h world world' hworlds hends
  exact ⟨result, ⟨least, fun fuel hfuel => hleast (fuel + 1) (by omega)⟩, hresult⟩

/-- The two ways in which an action can come to its end, and another one after it. -/
theorem Follows.cases {world world' : World} (h : Follows r f x y)
    (hworlds : world.recode r .empty = world'.recode r .empty) (hends : ¬ OutOfFuel (x world)) :
    (∃ a a' after after', x world = .ok a after ∧ Settles y world' (.ok a' after') ∧
        f a' = f a ∧ after'.recode r .empty = after.recode r .empty) ∨
      ∃ abort abort' after after', x world = .error abort after ∧
        Settles y world' (.error abort' after') ∧ abort'.recode r = abort.recode r ∧
          after'.recode r .empty = after.recode r .empty := by
  obtain ⟨result, hsettles, hresult⟩ := h world world' hworlds hends
  cases hx : x world with
  | ok a after =>
    rw [hx] at hresult
    cases result with
    | ok a' after' =>
      injection hresult with ha hafter
      exact .inl ⟨a, a', after, after', rfl, hsettles, ha, hafter⟩
    | error abort' after' => cases hresult
  | error abort after =>
    rw [hx] at hresult
    cases result with
    | ok a' after' => cases hresult
    | error abort' after' =>
      injection hresult with habort hafter
      exact .inr ⟨abort, abort', after, after', rfl, hsettles, habort, hafter⟩

theorem Follows.bind {k : α → Act β} {k' : α → Nat → Act β} (h : Follows r f x y)
    (hk : ∀ a a', f a' = f a → Follows r g (k a) (k' a')) :
    Follows r g (x >>= k) fun fuel => y fuel >>= fun a => k' a fuel := by
  intro world world' hworlds hends
  have hbind : (x >>= k) world = EStateM.bind x k world := rfl
  have hbind' : ∀ fuel, (y fuel >>= fun a => k' a fuel) world' =
      EStateM.bind (y fuel) (fun a => k' a fuel) world' := fun _ => rfl
  simp only [Settles, hbind, hbind', EStateM.bind] at hends ⊢
  -- What runs out of fuel in its first part does so as a whole.
  have hfirst : ¬ OutOfFuel (x world) := by
    rintro ⟨after, heq⟩
    rw [heq] at hends
    exact hends ⟨after, rfl⟩
  rcases h.cases hworlds hfirst with ⟨a, a', after, after', hx, ⟨least, hleast⟩, ha, hafter⟩ |
    ⟨abort, abort', after, after', hx, ⟨least, hleast⟩, habort, hafter⟩
  · rw [hx] at hends ⊢
    obtain ⟨final, ⟨least', hleast'⟩, hfinal⟩ := hk a a' ha after after' hafter.symm hends
    refine ⟨final, ⟨max least least', fun fuel hfuel => ?_⟩, hfinal⟩
    rw [hleast fuel (by omega)]
    exact hleast' fuel (by omega)
  · rw [hx]
    refine ⟨.error abort' after', ⟨least, fun fuel hfuel => ?_⟩, ?_⟩
    · rw [hleast fuel hfuel]
    · rw [recodeResult, recodeResult, habort, hafter]

theorem Follows.frame (h : Follows r f x y) (host : Host) (line : Nat) :
    Follows r f (frame host line x) fun fuel => frame host line (y fuel) := by
  intro world world' hworlds hends
  have hdepth : world'.depth = world.depth := (congrArg World.depth hworlds).symm
  have hinside : World.recode r .empty { world with depth := world.depth + 1 } =
      World.recode r .empty { world' with depth := world'.depth + 1 } :=
    congrArg (fun w : World => { w with depth := w.depth + 1 }) hworlds
  have houtside : ∀ {after after' : World}, after'.recode r .empty = after.recode r .empty →
      World.recode r .empty { after' with depth := after'.depth - 1 } =
        World.recode r .empty { after with depth := after.depth - 1 } :=
    fun h => congrArg (fun w : World => { w with depth := w.depth - 1 }) h
  -- The depths are the same, so both calls are refused or none is.
  simp only [Settles, Lexical.frame, hdepth] at hends ⊢
  by_cases hfull : host.maxDepth.any (· ≤ world.depth)
  · simp only [if_pos hfull]
    refine ⟨.error (.runtime .stackOverflow line) world', ⟨0, fun _ _ => rfl⟩, ?_⟩
    rw [recodeResult, recodeResult, hworlds]
  · simp only [if_neg hfull] at hends ⊢
    have hbody : ¬ OutOfFuel (x { world with depth := world.depth + 1 }) := by
      rintro ⟨after, heq⟩
      rw [heq] at hends
      exact hends ⟨_, rfl⟩
    rcases h.cases hinside hbody with ⟨a, a', after, after', hx, ⟨least, hleast⟩, ha, hafter⟩ |
      ⟨abort, abort', after, after', hx, ⟨least, hleast⟩, habort, hafter⟩
    · rw [hx]
      refine ⟨.ok a' { after' with depth := after'.depth - 1 }, ⟨least, fun fuel hfuel => ?_⟩, ?_⟩
      · rw [← hdepth, hleast fuel hfuel]
      · exact congrArg₂ EStateM.Result.ok ha (houtside hafter)
    · rw [hx]
      refine ⟨.error abort' { after' with depth := after'.depth - 1 },
        ⟨least, fun fuel hfuel => ?_⟩, ?_⟩
      · rw [← hdepth, hleast fuel hfuel]
      · exact congrArg₂ EStateM.Result.error habort (houtside hafter)

end Lox.Lexical
