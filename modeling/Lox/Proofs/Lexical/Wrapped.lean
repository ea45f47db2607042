/-
Ids that come round again.

Ids are counted with 32 bits, so two references have the same id when very many were
handed out in a session.  As long as they suffice nothing comes of that:

* `Session.ReachableWrapped.reachable` — a session in which the ids sufficed is one in
  which they never come round;
* `Session.resolved_names_bound` — in such a session the names that were resolved are where
  they should be, at every moment of every run.

Afterwards the distance of an old reference is taken for that of a new one
(`Session.resolved_names_lost`).
-/
import Mathlib
import Lox.Proofs.Lexical.Sessions
import Lox.Proofs.Relabelling.Findings

namespace Lox

namespace Session

variable {host : Host} {session : Session} {source : String} {p : Program}

/-! ### Sessions in which the ids suffice -/

theorem nextId_le_check (session : Session) (source : String) :
    session.nextId ≤ (session.check source).2.nextId :=
  (Program.read_numbered _ _).le

@[simp] theorem nextId_runChecked (fuel : Nat) (checked : Except (List Diagnostic) Program) :
    (session.runChecked host fuel checked).2.nextId = session.nextId := by
  cases checked <;> rfl

@[simp] theorem nextId_runWrapped (fuel : Nat) :
    (session.runWrapped host fuel source).2.nextId = (session.check source).2.nextId :=
  nextId_runChecked fuel _

/-- Whether a source is accepted does not depend on ids, so they may be wrapped afterwards. -/
theorem checkWrapped_fst (session : Session) (source : String) :
    (session.checkWrapped source).1 = (session.check source).1.map Program.wrapIds := by
  show ((session.parse source).1.map Program.wrapIds).bind Program.checked =
    ((session.parse source).1.bind Program.checked).map Program.wrapIds
  cases (session.parse source).1 with
  | error diagnostics => rfl
  | ok p => exact p.checked_ids _

/-- A program keeps its ids if none of them is past the last one. -/
theorem wrapIds_eq_self (h : ∀ m ∈ Stmt.mentionsEach p, m.id < idCount) : p.wrapIds = p :=
  Program.relabel_eq_self fun m hm => Nat.mod_eq_of_lt (h m hm)

theorem checkWrapped_eq (hids : (session.check source).2.nextId ≤ idCount) :
    session.checkWrapped source = session.check source := by
  refine Prod.ext ?_ rfl
  rw [checkWrapped_fst]
  cases hcheck : (session.check source).1 with
  | error diagnostics => rfl
  | ok p =>
    have hnumbered := check_numbered hcheck
    exact congrArg Except.ok (wrapIds_eq_self fun m hm =>
      Nat.lt_of_lt_of_le (hnumbered.range m hm).2 hids)

theorem runWrapped_eq (fuel : Nat) (hids : (session.check source).2.nextId ≤ idCount) :
    session.runWrapped host fuel source = session.run host fuel source := by
  unfold runWrapped
  rw [checkWrapped_eq hids]
  rfl

/-- As long as the ids suffice they do not come round. -/
theorem ReachableWrapped.reachable (h : ReachableWrapped host session)
    (hids : session.nextId ≤ idCount) : Reachable host session := by
  induction h with
  | start sink => exact .start sink
  | @parse session _ source ih =>
    exact (ih (Nat.le_trans (session.nextId_le_check source) hids)).parse source
  | @run session _ fuel source ih =>
    rw [nextId_runWrapped] at hids
    rw [runWrapped_eq fuel hids]
    exact (ih (Nat.le_trans (session.nextId_le_check source) hids)).run fuel source

/-! ### Main statement -/

/-- Let the ids of a session suffice for all references up to a source that is accepted,
those in it included.  Then every promise of resolution is kept at every moment of its
run: the guard, which stops the run at the first moment at which one is broken, changes
nothing, and no binding is ever missing.  So a name that was located can be read, and it
can be assigned but for its own initializer, where it is not bound. -/
theorem resolved_names_bound (hreachable : ReachableWrapped host session)
    (hcheck : (session.checkWrapped source).1 = .ok p)
    (hids : (session.checkWrapped source).2.nextId ≤ idCount) (fuel : Nat) :
    Exec.runWatched host Exec.guard fuel p (session.machine.prepared p) =
        Exec.runProgram host fuel p (session.machine.prepared p) ∧
      (∀ m, Exec.runProgram host fuel p (session.machine.prepared p) ≠ .error .dangling m) ∧
      ∀ (m : Machine) (target : Reference) (distance : Nat),
        m.distances[target.id]? = some distance →
          (∀ pending, m.keeps (.reach pending (.varRef target)) = true →
            ∃ value, Exec.read target m = .ok value m) ∧
          ∀ pending value, m.keeps (.assign pending target) = true →
            if pending = some target.name.text then
              Exec.write target value m =
                .error (.runtime (.undefinedVariable target.name.text) target.name.line) m
            else ∃ m', Exec.write target value m = .ok () m' := by
  have hbefore : session.nextId ≤ idCount := Nat.le_trans (session.nextId_le_check source) hids
  rw [checkWrapped_eq hids] at hcheck
  obtain ⟨l, w, hgrounded⟩ := (hreachable.reachable hbefore).grounded
  refine ⟨hgrounded.runWatched hcheck host fuel, fun m hdangling => ?_, fun m target distance hd =>
    ⟨fun pending hkeeps => Machine.read_of_keeps hd hkeeps, fun pending value hkeeps => ?_⟩⟩
  · have hends := hgrounded.ends' hcheck host fuel
    rw [hdangling] at hends
    generalize Lexical.runProgram host fuel p w.prepared = r at hends
    cases hends with
    | error _ _ _ _ hne => exact absurd rfl hne
  · split
    · rename_i hpending
      subst hpending
      exact Machine.write_of_keeps_pending value hd hkeeps
    · rename_i hpending
      exact Machine.write_of_keeps value hd hkeeps hpending

/-- A session in which a variable was assigned in its own initializer, and a closure that
assigns a variable after its initializer. -/
theorem resolved_names_bound_after_error :
    let host : Host := ⟨some maxCallDepth, fun _ => 0⟩
    let session := ((start (.ofLimit none)).runWrapped host 10 "{var a = (a = nil);}").2
    let source := "{var b; fun f() {b = b;} f();}"
    let f : FunctionDecl := ⟨⟨"f", 1⟩, [],
      [.expression (.assign ⟨1, ⟨"b", 1⟩⟩ (.varRef ⟨2, ⟨"b", 1⟩⟩))]⟩
    let program : Program := [.block [.varDecl ⟨"b", 1⟩ none, .funDecl f,
      .expression (.call (.varRef ⟨3, ⟨"f", 1⟩⟩) [] 1)]]
    ReachableWrapped host session ∧ (session.checkWrapped source).1 = .ok program ∧
      (session.checkWrapped source).2.nextId ≤ idCount ∧
      Exec.runWatched host Exec.guard 10 program (session.machine.prepared program) =
        Exec.runProgram host 10 program (session.machine.prepared program) := by
  intro host session source f program
  have hreachable : ReachableWrapped host session := .run (.start _) 10 _
  have htokens : TokenStream.ofSource source =
      ⟨[⟨.symbol .leftBrace, "\x7b", 1⟩, ⟨.keyword .var, "var", 1⟩, ⟨.identifier, "b", 1⟩,
        ⟨.symbol .semicolon, ";", 1⟩, ⟨.keyword .fun, "fun", 1⟩, ⟨.identifier, "f", 1⟩,
        ⟨.symbol .leftParen, "(", 1⟩, ⟨.symbol .rightParen, ")", 1⟩,
        ⟨.symbol .leftBrace, "\x7b", 1⟩, ⟨.identifier, "b", 1⟩, ⟨.symbol .equal, "=", 1⟩,
        ⟨.identifier, "b", 1⟩, ⟨.symbol .semicolon, ";", 1⟩, ⟨.symbol .rightBrace, "\x7d", 1⟩,
        ⟨.identifier, "f", 1⟩, ⟨.symbol .leftParen, "(", 1⟩, ⟨.symbol .rightParen, ")", 1⟩,
        ⟨.symbol .semicolon, ";", 1⟩, ⟨.symbol .rightBrace, "\x7d", 1⟩, ⟨.endOfFile, "", 1⟩],
        []⟩ := by
    decide +kernel
  have hnext : session.nextId = 1 := by decide +kernel
  have hread : Program.read session.nextId (TokenStream.ofSource source).tokens =
      ⟨program, [], 4⟩ := by
    rw [htokens, hnext]
    simp only [program, f]
    cbv
  have hids : (session.checkWrapped source).2.nextId ≤ idCount := by
    show (session.check source).2.nextId ≤ idCount
    rw [nextId_check, hread]
    decide
  have hcheck : (session.checkWrapped source).1 = .ok program := by
    rw [checkWrapped_eq hids, check_eq_ok_iff, hread, htokens]
    exact ⟨rfl, rfl, rfl, rfl⟩
  exact ⟨hreachable, hcheck, hids, (resolved_names_bound hreachable hcheck hids 10).1⟩

/-! ### More ids than there are -/

/-- The session after a source with one reference was parsed. -/
def parseMention (session : Session) : Session :=
  (session.parseWrapped "x;").2

theorem parseMention_eq (session : Session) :
    session.parseMention = ⟨session.machine, session.nextId + 1⟩ := by
  have htokens : (TokenStream.ofSource "x;").tokens =
      [⟨.identifier, "x", 1⟩, ⟨.symbol .semicolon, ";", 1⟩, ⟨.endOfFile, "", 1⟩] := by
    decide +kernel
  have hread (n : Nat) : (Program.read n (TokenStream.ofSource "x;").tokens).nextId = n + 1 := by
    rw [htokens]
    cbv
  exact congrArg (Session.mk session.machine) (hread session.nextId)

theorem iterate_parseMention (session : Session) (times : Nat) :
    parseMention^[times] session = ⟨session.machine, session.nextId + times⟩ := by
  induction times with
  | zero => rfl
  | succ times ih =>
    rw [Function.iterate_succ_apply', ih, parseMention_eq]
    rfl

theorem ReachableWrapped.iterate_parseMention (h : ReachableWrapped host session) (times : Nat) :
    ReachableWrapped host (parseMention^[times] session) := by
  induction times with
  | zero => exact h
  | succ times ih =>
    rw [Function.iterate_succ_apply']
    exact ih.parse "x;"

/-- Two ways in which a promise of resolution is not kept.  When as many references were
parsed as there are ids, a global variable is looked for at the distance of an old
reference, and the guard tells.  And an assignment in the initializer of its own variable
does not come to look for it when its value cannot be evaluated. -/
theorem resolved_names_lost :
    let host : Host := ⟨some maxCallDepth, fun _ => 0⟩
    let first := start (.ofLimit none)
    let block := (first.runWrapped host 10 "{var a; {a;}}").2
    let many := parseMention^[idCount - 1] block
    let global : Program := [.varDecl ⟨"b", 1⟩ none, .print (.varRef ⟨0, ⟨"b", 1⟩⟩)]
    let own : Program := [.block [.varDecl ⟨"a", 1⟩ (some (.grouping
      (.assign ⟨0, ⟨"a", 1⟩⟩ (.call (.literal .nil) [] 1))))]]
    (ReachableWrapped host many ∧ (many.checkWrapped "var b; print b;").1 = .ok global ∧
      (many.machine.prepared global).distances[0]? = some 1 ∧
      (many.runWrapped host 10 "var b; print b;").1.failure.bind Failure.abort? =
        some (.runtime (.undefinedVariable "b") 1) ∧
      Exec.runWatched host Exec.guard 10 global (many.machine.prepared global) ≠
        Exec.runProgram host 10 global (many.machine.prepared global)) ∧
    (ReachableWrapped host first ∧ (first.checkWrapped "{var a = (a = nil());}").1 = .ok own ∧
      (first.machine.prepared own).distances[0]? = some 0 ∧
      (first.runWrapped host 10 "{var a = (a = nil());}").1.failure.bind Failure.abort? =
        some (.runtime .notCallable 1)) := by
  intro host first block many global own
  have hfirst : ReachableWrapped host first := .start _
  have hreachable : ReachableWrapped host many := (hfirst.run 10 _).iterate_parseMention _
  have hmany : many = ⟨block.machine, idCount⟩ := by
    have hnext : block.nextId + (idCount - 1) = idCount := by decide +kernel
    simp only [many]
    rw [iterate_parseMention, hnext]
  have hglobal : (many.checkWrapped "var b; print b;").1 = .ok global := by
    have htokens : TokenStream.ofSource "var b; print b;" =
        ⟨[⟨.keyword .var, "var", 1⟩, ⟨.identifier, "b", 1⟩, ⟨.symbol .semicolon, ";", 1⟩,
          ⟨.keyword .print, "print", 1⟩, ⟨.identifier, "b", 1⟩, ⟨.symbol .semicolon, ";", 1⟩,
          ⟨.endOfFile, "", 1⟩], []⟩ := by
      decide +kernel
    have hread (n : Nat) : Program.read n (TokenStream.ofSource "var b; print b;").tokens =
        ⟨[.varDecl ⟨"b", 1⟩ none, .print (.varRef ⟨n, ⟨"b", 1⟩⟩)], [], n + 1⟩ := by
      rw [htokens]
      cbv
    have hcheck : (many.check "var b; print b;").1 =
        .ok [.varDecl ⟨"b", 1⟩ none, .print (.varRef ⟨idCount, ⟨"b", 1⟩⟩)] := by
      rw [hmany, check_eq_ok_iff, hread, htokens]
      exact ⟨rfl, rfl, rfl, rfl⟩
    rw [checkWrapped_fst, hcheck]
    rfl
  have hown : (first.checkWrapped "{var a = (a = nil());}").1 = .ok own := by
    have htokens : TokenStream.ofSource "{var a = (a = nil());}" =
        ⟨[⟨.symbol .leftBrace, "\x7b", 1⟩, ⟨.keyword .var, "var", 1⟩, ⟨.identifier, "a", 1⟩,
          ⟨.symbol .equal, "=", 1⟩, ⟨.symbol .leftParen, "(", 1⟩, ⟨.identifier, "a", 1⟩,
          ⟨.symbol .equal, "=", 1⟩, ⟨.keyword .nil, "nil", 1⟩, ⟨.symbol .leftParen, "(", 1⟩,
          ⟨.symbol .rightParen, ")", 1⟩, ⟨.symbol .rightParen, ")", 1⟩,
          ⟨.symbol .semicolon, ";", 1⟩, ⟨.symbol .rightBrace, "\x7d", 1⟩,
          ⟨.endOfFile, "", 1⟩], []⟩ := by
      decide +kernel
    have hread : Program.read first.nextId
        (TokenStream.ofSource "{var a = (a = nil());}").tokens = ⟨own, [], 1⟩ := by
      rw [htokens]
      simp only [first, own]
      cbv
    have hcheck : (first.check "{var a = (a = nil());}").1 = .ok own := by
      rw [check_eq_ok_iff, hread, htokens]
      exact ⟨rfl, rfl, rfl, rfl⟩
    rw [checkWrapped_fst, hcheck]
    rfl
  refine ⟨⟨hreachable, hglobal, ?_, ?_, ?_⟩, hfirst, hown, ?_, ?_⟩
  · rw [hmany]
    decide +kernel
  · rw [hmany]
    decide +kernel
  · rw [hmany]
    -- the guarded run misses a binding, the other one a variable
    exact ne_of_apply_ne (fun result => (Machine.outcome result).1.failure.bind Failure.abort?)
      (by decide +kernel)
  · decide +kernel
  · decide +kernel

end Session
end Lox
