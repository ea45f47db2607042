/-
Sources that are run one after the other in a session, or joined and run at once.

To say where an error is located, the lines of each program are paired with the number of
its source, `ofPiece`, and the programs are run in a world.  There `inPiece` gives the
line in the source itself and `inJoined` the line in the joined sources.

* `Session.Corresponds` — a session is tied to a world up to ids and lines;
* `Session.run_joined` — a session agrees with one run of the joined sources, but for
  the lines of errors.
-/
import Mathlib
import Lox.Proofs.Joined.Runs
import Lox.Proofs.Joined.Sources

namespace Lox

/-! ### Where a line comes from -/

open Lexical

namespace Relabelling

/-- Pairs lines with the number of the piece they are from.  The code that was there
before all pieces has number 0. -/
def ofPiece (piece : Nat) : Relabelling :=
  .lines (Nat.pair piece)

/-- The line in the piece itself. -/
def inPiece : Relabelling :=
  ⟨fun place => place.unpair.2, fun _ => 0⟩

theorem inPiece_comp (n : Nat) : inPiece.comp (.ofPiece n) = anonymous :=
  Relabelling.ext (funext fun line => congrArg Prod.snd (Nat.unpair_pair n line)) rfl

end Relabelling

/-- How many newlines there are above a piece when the pieces are joined. -/
def newlinesAbove (pieces : List String) (piece : Nat) : Nat :=
  ((pieces.take (piece - 1)).map height).sum

/-- The line in the joined pieces. -/
def Relabelling.inJoined (pieces : List String) : Relabelling :=
  ⟨fun place => place.unpair.2 + newlinesAbove pieces place.unpair.1, fun _ => 0⟩

/-- Older code is above all pieces. -/
theorem Relabelling.inJoined_comp (pieces : List String) :
    (inJoined pieces).comp (.ofPiece 0) = anonymous := by
  refine Relabelling.ext (funext fun line => ?_) rfl
  show (Nat.unpair (Nat.pair 0 line)).2 + newlinesAbove pieces (Nat.unpair (Nat.pair 0 line)).1 = line
  rw [Nat.unpair_pair]
  rfl

/-- The programs with the numbers of their pieces, from the given one on. -/
def located : Nat → List Program → List Program
  | _, [] => []
  | n, p :: programs => p.relabel (.ofPiece n) :: located (n + 1) programs

variable {host : Host} {pieces : List String} {programs : List Program}

/-- The line in the piece forgets the number. -/
theorem Program.relabel_inPiece (n : Nat) (p : Program) :
    (p.relabel (.ofPiece n)).relabel .inPiece = p.relabel .anonymous := by
  rw [Program.relabel_relabel, Relabelling.inPiece_comp]

/-- If every piece is found where it is put, then so are their programs as one. -/
theorem relabel_flatten_located {r : Relabelling} (h : List.Forall₂ Accepted pieces programs)
    (hid : r.id = fun _ => 0) (n k : Nat)
    (hline : ∀ i line, r.line (Nat.pair (n + i) line) = line + (k + newlinesAbove pieces (i + 1))) :
    Program.relabel r (located n programs).flatten =
      (stacked k pieces programs).relabel .anonymous := by
  induction h generalizing n k with
  | nil => rfl
  | @cons piece p pieces programs _ _ ih =>
    have hcomp : r.comp (.ofPiece n) = Relabelling.anonymous.comp (.down k) := by
      refine Relabelling.ext (funext (hline 0)) ?_
      show r.id ∘ (fun id => id) = _
      rw [hid]
      rfl
    have hrest : ∀ i line, r.line (Nat.pair (n + 1 + i) line) =
        line + (k + height piece + newlinesAbove pieces (i + 1)) := by
      intro i line
      rw [Nat.add_assoc n, Nat.add_comm 1 i, hline (i + 1), Nat.add_assoc k]
      rfl
    rw [located, List.flatten_cons, Program.relabel_append, ih _ _ hrest, stacked,
      Program.relabel_append, Program.relabel_relabel, Program.relabel_relabel, hcomp]

/-! ### Sessions and worlds -/

/-- The session is tied to the world, up to ids and up to the new lines in the world. -/
def Session.Corresponds (r : Relabelling) (session : Session) (world : World) : Prop :=
  ∃ l w, Grounded l w session ∧ SameUpTo .anonymous r w world

variable {r : Relabelling} {session : Session} {world : World}

theorem Session.Corresponds.run (h : session.Corresponds r world) {source : String} {p q : Program}
    (hcheck : (session.check source).1 = .ok p) (hsame : p.relabel .anonymous = q.relabel r)
    (host : Host) (fuel : Nat) :
    (session.run host fuel source).1 = (world.run host fuel q).1.relabel r ∧
      (session.run host fuel source).2.Corresponds r (world.run host fuel q).2 := by
  obtain ⟨l, w, hgrounded, hw⟩ := h
  obtain ⟨houtcome, l', hgrounded'⟩ := hgrounded.run hcheck host fuel
  obtain ⟨houtcome', hw'⟩ := hw.run hsame host fuel
  refine ⟨?_, l', _, hgrounded', hw'⟩
  rw [houtcome, ← houtcome', Outcome.relabel_anonymous]

/-- Each piece is accepted as what the located program is in the piece itself. -/
theorem forall₂_located (h : List.Forall₂ Accepted pieces programs) (n : Nat) :
    List.Forall₂ (fun piece q => ∃ p, Accepted piece p ∧ p.relabel .anonymous = q.relabel .inPiece)
      pieces (located n programs) := by
  induction h generalizing n with
  | nil => exact .nil
  | @cons piece p pieces programs hfirst _ ih =>
    exact .cons ⟨p, hfirst, (p.relabel_inPiece n).symm⟩ (ih (n + 1))

/-- A session that runs the pieces one after the other. -/
theorem Session.Corresponds.run_apart (h : session.Corresponds .inPiece world)
    (haccepted : List.Forall₂ Accepted pieces programs) (n : Nat) (host : Host) (fuel : Nat) :
    (runEach (Session.run host fuel) session pieces).1 =
        (runEach (World.run host fuel) world (located n programs)).1.relabel .inPiece ∧
      (runEach (Session.run host fuel) session pieces).2.Corresponds .inPiece
        (runEach (World.run host fuel) world (located n programs)).2 := by
  refine runEach_relabel ?_ h (forall₂_located haccepted n)
  rintro session world piece q h ⟨p, hp, hsame⟩
  obtain ⟨p', hcheck, hp'⟩ := hp.check session
  exact h.run hcheck (hp'.trans hsame) host fuel

/-- A session that runs the joined pieces. -/
theorem Session.Corresponds.run_together (h : session.Corresponds (.inJoined pieces) world)
    (haccepted : List.Forall₂ Accepted pieces programs) (host : Host) (fuel : Nat) :
    (session.run host fuel (joined pieces)).1 =
        (runEach (World.run host fuel) world (located 1 programs)).1.relabel (.inJoined pieces) ∧
      (session.run host fuel (joined pieces)).2.Corresponds (.inJoined pieces)
        (runEach (World.run host fuel) world (located 1 programs)).2 := by
  obtain ⟨q, hcheck, hq⟩ := session.check_joined haccepted
  have hline : ∀ i line, (Relabelling.inJoined pieces).line (Nat.pair (1 + i) line) =
      line + (0 + newlinesAbove pieces (i + 1)) := by
    intro i line
    simp only [Relabelling.inJoined, Nat.unpair_pair, Nat.zero_add, Nat.add_comm 1 i]
  rw [← relabel_flatten_located haccepted rfl 1 0 hline] at hq
  obtain ⟨houtcome, l, w, hgrounded, hw⟩ := h.run hcheck hq host fuel
  obtain ⟨houtcome', hw'⟩ := World.run_flatten (.inJoined pieces) host fuel world (located 1 programs)
  exact ⟨houtcome.trans houtcome', l, w, hgrounded, hw.trans hw'⟩

/-! ### Global variables -/

/-- What a global variable prints, if there is one. -/
def Session.shown? (session : Session) (name : String) : Option String :=
  (session.machine.store.lookup Store.globals name).map
    (Value.text session.machine.store.className)

theorem Lexical.Grounded.shown? {l : Layout} (h : Grounded l world session) (name : String) :
    session.shown? name = world.shown? name := by
  rw [Session.shown?, World.shown?, h.tied.store]
  rcases optionRel_cases (h.tied.heap.globals name) with ⟨ha, hb⟩ | ⟨a, b, ha, hb, hrel⟩
  · rw [ha, hb]
    rfl
  · rw [ha, hb, Option.map_some, Option.map_some, hrel.text h.tied.heap]

theorem Session.Corresponds.shown? (h : session.Corresponds r world) (name : String) :
    session.shown? name = world.shown? name := by
  obtain ⟨l, w, hgrounded, hw⟩ := h
  rw [hgrounded.shown?, ← World.shown?_relabel (r := .anonymous), hw, World.shown?_relabel]

/-! ### Main statement -/

/-- A session that runs accepted pieces one after the other, up to the first that fails,
agrees with one that runs them joined, which are accepted too.  Let the programs be run
one after the other where the session stands, with each line paired with the number of
the piece that it is from.  Then the pieces print the same bytes, and if one fails, then
with the same error on the line in that piece; and the joined pieces print the same bytes,
and fail with the same error on that line below all newlines that are above the piece.
In the end both sessions correspond to the same world, and their global variables print
the same. -/
theorem Session.run_joined (hreachable : Session.Reachable host session)
    (haccepted : List.Forall₂ Accepted pieces programs) (fuel : Nat) :
    (∃ p, (session.check (joined pieces)).1 = .ok p) ∧
      ∃ l world, Grounded l world session ∧
        let reference :=
          runEach (World.run host fuel) (world.relabel (.ofPiece 0) .empty) (located 1 programs)
        let apart := runEach (Session.run host fuel) session pieces
        let together := session.run host fuel (joined pieces)
        apart.1.output = together.1.output ∧
          apart.1 = reference.1.relabel .inPiece ∧
          together.1 = reference.1.relabel (.inJoined pieces) ∧
          apart.2.Corresponds .inPiece reference.2 ∧
          together.2.Corresponds (.inJoined pieces) reference.2 ∧
          ∀ name, apart.2.shown? name = together.2.shown? name := by
  obtain ⟨p, hcheck, -⟩ := session.check_joined haccepted
  obtain ⟨l, world, hgrounded⟩ := hreachable.grounded
  have hcorresponds : ∀ {r : Relabelling}, r.comp (.ofPiece 0) = .anonymous →
      session.Corresponds r (world.relabel (.ofPiece 0) .empty) := by
    intro r hr
    refine ⟨l, world, hgrounded, ?_⟩
    rw [SameUpTo, World.prepared_relabel, World.relabel_relabel, hr]
  obtain ⟨hapart, hapart'⟩ :=
    (hcorresponds (Relabelling.inPiece_comp 0)).run_apart haccepted 1 host fuel
  obtain ⟨htogether, htogether'⟩ :=
    (hcorresponds (Relabelling.inJoined_comp pieces)).run_together haccepted host fuel
  have houtput : (runEach (Session.run host fuel) session pieces).1.output =
      (session.run host fuel (joined pieces)).1.output := by
    rw [hapart, htogether]
    rfl
  exact ⟨⟨p, hcheck⟩, l, world, hgrounded, houtput, hapart, htogether, hapart', htogether', fun name =>
    (hapart'.shown? name).trans (htogether'.shown? name).symm⟩

/-- A closure of the second piece that fails when the third piece calls it: on the second line
of its piece, which is the third line of the joined pieces. -/
theorem Session.run_joined_closure :
    let host : Host := ⟨some maxCallDepth, fun _ => 0⟩
    let session := Session.start (.ofLimit none)
    let pieces := ["var a;", "fun f()\n{nil();}", "f();"]
    Session.Reachable host session ∧
      List.Forall₂ Accepted pieces
        [[.varDecl ⟨"a", 1⟩ none],
          [.funDecl ⟨⟨"f", 1⟩, [], [.expression (.call (.literal .nil) [] 2)]⟩],
          [.expression (.call (.varRef ⟨0, ⟨"f", 1⟩⟩) [] 1)]] ∧
      (∃ p, (session.check (joined pieces)).1 = .ok p) ∧
      (runEach (Session.run host 10) session pieces).1.output =
        (session.run host 10 (joined pieces)).1.output ∧
      (runEach (Session.run host 10) session pieces).1.failure.bind Failure.abort? =
        some (.runtime .notCallable 2) ∧
      (session.run host 10 (joined pieces)).1.failure.bind Failure.abort? =
        some (.runtime .notCallable 3) ∧
      ∀ name, (runEach (Session.run host 10) session pieces).2.shown? name =
        (session.run host 10 (joined pieces)).2.shown? name := by
  intro host session pieces
  have hreachable : Session.Reachable host session := .start _
  have haccepted : List.Forall₂ Accepted pieces
      [[.varDecl ⟨"a", 1⟩ none],
        [.funDecl ⟨⟨"f", 1⟩, [], [.expression (.call (.literal .nil) [] 2)]⟩],
        [.expression (.call (.varRef ⟨0, ⟨"f", 1⟩⟩) [] 1)]] := by
    refine .cons ?_ (.cons ?_ (.cons ?_ .nil))
    all_goals
      unfold Accepted
      cbv
  have hapart : (runEach (Session.run host 10) session pieces).1.failure.bind Failure.abort? =
      some (.runtime .notCallable 2) := by decide +kernel
  have htogether : (session.run host 10 (joined pieces)).1.failure.bind Failure.abort? =
      some (.runtime .notCallable 3) := by decide +kernel
  obtain ⟨hcheck, l, world, -, houtput, -, -, -, -, hglobals⟩ :=
    Session.run_joined hreachable haccepted 10
  exact ⟨hreachable, haccepted, hcheck, houtput, hapart, htogether, hglobals⟩

end Lox
