/-
What is printed when there is room for so many bytes only.

An action that prints some bytes on an unlimited sink does the same on a sink with room
for all of them.  With less room it prints as many as there is room for and stops there,
whatever it would have done next.

* `Exec.Prints` — what an action prints, with any room;
* `Exec.Clips` — on every machine there is such a sequence of bytes;
* `Exec.Clips.bind`, `Exec.Clips.inScope`, `Exec.Clips.frame` — actions that are put
  together from such actions;
* `Exec.Clips.extends` — what was printed stays printed.
-/
import Lox.Proofs.Lockstep.Actions

namespace Lox

/-- The machine with a sink that accepts so many bytes more. -/
def Machine.withRoom (m : Machine) (room : Nat) : Machine :=
  { m with sink := ⟨some room, m.sink.written⟩ }

/-- The machine with a sink that accepts everything. -/
def Machine.unlimited (m : Machine) : Machine :=
  { m with sink := ⟨none, m.sink.written⟩ }

theorem Machine.withRoom_unlimited {m : Machine} {room : Nat} (h : m.sink.room = some room) :
    m.unlimited.withRoom room = m := by
  rw [Machine.withRoom, ← h]
  rfl

/-! ### Bytes -/

theorem extract_whole {bytes : ByteArray} {room : Nat} (h : bytes.size ≤ room) :
    bytes.extract 0 room = bytes := by
  have hmax := ByteArray.extract_zero_max_size (a := bytes) (i := room)
  rwa [Nat.max_eq_left h] at hmax

theorem extract_append_of_le {first second : ByteArray} {room : Nat} (h : first.size ≤ room) :
    (first ++ second).extract 0 room = first ++ second.extract 0 (room - first.size) := by
  rw [ByteArray.extract_append, extract_whole h, Nat.zero_sub]

theorem extract_append_of_lt {first second : ByteArray} {room : Nat} (h : room < first.size) :
    (first ++ second).extract 0 room = first.extract 0 room := by
  have hnone : room - first.size = 0 := by omega
  rw [ByteArray.extract_append, hnone, Nat.zero_sub, ByteArray.extract_same,
    ByteArray.append_empty]

namespace Sink

variable {written bytes : ByteArray} {room : Nat}

theorem write_of_le (h : bytes.size ≤ room) :
    (⟨some room, written⟩ : Sink).write bytes =
      (true, ⟨some (room - bytes.size), written ++ bytes⟩) :=
  if_pos h

theorem write_of_lt (h : room < bytes.size) :
    (⟨some room, written⟩ : Sink).write bytes =
      (false, ⟨some 0, written ++ bytes.extract 0 room⟩) :=
  if_neg (Nat.not_le.mpr h)

end Sink

namespace Exec

variable {α β : Type} {host : Host}

/-- From this machine the action prints these bytes.  If there is no room for them, it
stops at the first byte that is refused. -/
structure Prints (x : Exec α) (m : Machine) (bytes : ByteArray) : Prop where
  unlimited : (Machine.left (x m)).sink = ⟨none, m.sink.written ++ bytes⟩
  fits : ∀ room, bytes.size ≤ room →
    x (m.withRoom room) = leaving (·.withRoom (room - bytes.size)) (x m)
  clipped : ∀ room, room < bytes.size → ∃ m', x (m.withRoom room) = .error .sinkFull m' ∧
    m'.sink = ⟨some 0, m.sink.written ++ bytes.extract 0 room⟩

/-- A limited sink only cuts off what the action prints. -/
def Clips (x : Exec α) : Prop :=
  ∀ m, m.sink.room = none → ∃ bytes, Prints x m bytes

/-! ### Actions -/

theorem Quiet.clips {x : Exec α} (hx : Quiet x) : Clips x := by
  intro m hroom
  have hsink : (Machine.left (x m)).sink = ⟨none, m.sink.written ++ .empty⟩ := by
    rw [hx.sink m, ByteArray.append_empty, ← hroom]
  refine ⟨.empty, hsink, fun room _ => ?_, fun room hlt => absurd hlt (Nat.not_lt_zero _)⟩
  refine (hx.amid m ⟨some room, m.sink.written⟩ m.depth).trans (leaving_congr ?_)
  -- the sink and the depth are those of the machine before
  rw [hx.unchanged m]
  rfl

theorem clips_print (value : Datum) : Clips (print value) := by
  intro m hroom
  have hsink : m.sink = ⟨none, m.sink.written⟩ := by rw [← hroom]
  have hprint : print value m = .ok () { m with sink :=
      ⟨none, m.sink.written ++ (value.text m.store.className ++ "\n").toUTF8⟩ } := by
    unfold print
    dsimp only
    rw [hsink]
    rfl
  refine ⟨(value.text m.store.className ++ "\n").toUTF8, ?_, fun room hle => ?_, fun room hlt => ?_⟩
  · rw [hprint]
    rfl
  · rw [hprint]
    unfold print
    dsimp only [Machine.withRoom]
    rw [Sink.write_of_le hle]
    rfl
  · refine ⟨{ m with sink := ⟨some 0, m.sink.written ++
      (value.text m.store.className ++ "\n").toUTF8.extract 0 room⟩ }, ?_, rfl⟩
    unfold print
    dsimp only [Machine.withRoom]
    rw [Sink.write_of_lt hlt]
    rfl

variable {m m₁ : Machine} {first second bytes : ByteArray}

/-- What is printed by two actions, one after the other. -/
theorem Prints.bind {x : Exec α} {f : α → Exec β} {a : α} (hx : Prints x m first)
    (hok : x m = .ok a m₁) (hf : Prints (f a) m₁ second) :
    Prints (x >>= f) m (first ++ second) := by
  have hsink : m₁.sink = ⟨none, m.sink.written ++ first⟩ := by
    have h := hx.unlimited
    rwa [hok] at h
  have hthen : ∀ room, first.size ≤ room →
      (x >>= f) (m.withRoom room) = f a (m₁.withRoom (room - first.size)) := by
    intro room hle
    have h := hx.fits room hle
    rw [hok] at h
    exact bind_ok h
  refine ⟨?_, fun room hle => ?_, fun room hlt => ?_⟩
  · rw [bind_ok hok, hf.unlimited, hsink, ByteArray.append_assoc]
  · rw [ByteArray.size_append] at hle
    rw [hthen room (by omega), hf.fits (room - first.size) (by omega), bind_ok hok,
      ByteArray.size_append, Nat.sub_sub]
  · rw [ByteArray.size_append] at hlt
    by_cases hle : first.size ≤ room
    · -- there is room for the first action, and the second one is cut off
      obtain ⟨m', herror, hwritten⟩ := hf.clipped (room - first.size) (by omega)
      refine ⟨m', (hthen room hle).trans herror, ?_⟩
      rw [hwritten, hsink, extract_append_of_le hle, ByteArray.append_assoc]
    · have hlt : room < first.size := by omega
      obtain ⟨m', herror, hwritten⟩ := hx.clipped room hlt
      refine ⟨m', bind_error herror, ?_⟩
      rw [hwritten, extract_append_of_lt hlt]

/-- An action that is not reached prints nothing. -/
theorem Prints.stop {x : Exec α} {f : α → Exec β} {abort : Abort} (hx : Prints x m bytes)
    (herror : x m = .error abort m₁) : Prints (x >>= f) m bytes := by
  refine ⟨?_, fun room hle => ?_, fun room hlt => ?_⟩
  · have h := hx.unlimited
    rw [herror] at h
    rw [bind_error herror]
    exact h
  · have h := hx.fits room hle
    rw [herror] at h
    rw [bind_error herror]
    exact bind_error h
  · obtain ⟨m', hfull, hwritten⟩ := hx.clipped room hlt
    exact ⟨m', bind_error hfull, hwritten⟩

theorem Clips.bind {x : Exec α} {f : α → Exec β} (hx : Clips x) (hf : ∀ a, Clips (f a)) :
    Clips (x >>= f) := by
  intro m hroom
  obtain ⟨first, hfirst⟩ := hx m hroom
  cases hresult : x m with
  | ok a m₁ =>
    have hsink := hfirst.unlimited
    rw [hresult] at hsink
    obtain ⟨second, hsecond⟩ := hf a m₁ (congrArg Sink.room hsink)
    exact ⟨first ++ second, hfirst.bind hresult hsecond⟩
  | error abort m₁ => exact ⟨first, hfirst.stop hresult⟩

/-- The machine is put into another place before the action and back after it. -/
theorem Prints.moved {x y : Exec α} {change : Machine → Machine} (hx : Prints x m₁ bytes)
    (hsink : m₁.sink = m.sink) (hy : y m = leaving change (x m₁))
    (hyroom : ∀ room, y (m.withRoom room) = leaving change (x (m₁.withRoom room)))
    (hkept : ∀ m', (change m').sink = m'.sink)
    (hroom : ∀ m' room, change (m'.withRoom room) = (change m').withRoom room) :
    Prints y m bytes := by
  refine ⟨?_, fun room hle => ?_, fun room hlt => ?_⟩
  · rw [hy, left_leaving, hkept, hx.unlimited, hsink]
  · rw [hyroom, hx.fits room hle, hy]
    cases x m₁ with
    | ok a m' => exact congrArg (EStateM.Result.ok a) (hroom m' _)
    | error abort m' => exact congrArg (EStateM.Result.error abort) (hroom m' _)
  · obtain ⟨m', herror, hwritten⟩ := hx.clipped room hlt
    refine ⟨change m', ?_, ?_⟩
    · rw [hyroom, herror]
      rfl
    · rw [hkept, hwritten, hsink]

theorem Clips.inScope {x : Exec α} (hx : Clips x) (scope : ScopeAddress) :
    Clips (inScope scope x) := by
  intro m hroom
  obtain ⟨bytes, hbytes⟩ := hx { m with scope := scope } hroom
  exact ⟨bytes, hbytes.moved rfl (inScope_eq scope x m)
    (fun room => inScope_eq scope x (m.withRoom room)) (fun _ => rfl) fun _ _ => rfl⟩

theorem Clips.frame {x : Exec α} (hx : Clips x) (line : Nat) : Clips (frame host line x) := by
  intro m hroom
  cases hfull : host.maxDepth.any (· ≤ m.depth) with
  | true =>
    -- refused on every sink, like an action that fails
    have hfails : Clips (fail .stackOverflow line : Exec α) := (quiet_fail _ _).clips
    obtain ⟨bytes, hbytes⟩ := hfails m hroom
    refine ⟨bytes, hbytes.moved rfl ?_ (fun room => ?_) (fun _ => rfl) fun _ _ => rfl⟩
    · exact frame_of_full line x hfull
    · exact frame_of_full line x hfull
  | false =>
    obtain ⟨bytes, hbytes⟩ := hx { m with depth := m.depth + 1 } hroom
    exact ⟨bytes, hbytes.moved rfl (frame_of_not_full line x hfull)
      (fun room => frame_of_not_full line x hfull) (fun _ => rfl) fun _ _ => rfl⟩

/-! ### What was printed stays -/

/-- The action only adds to what was printed. -/
def Extends (x : Exec α) : Prop :=
  ∀ m, ∃ rest, (Machine.left (x m)).sink.written = m.sink.written ++ rest

theorem Clips.extends {x : Exec α} (hx : Clips x) : Extends x := by
  intro m
  cases hroom : m.sink.room with
  | none =>
    obtain ⟨bytes, hbytes⟩ := hx m hroom
    exact ⟨bytes, congrArg Sink.written hbytes.unlimited⟩
  | some room =>
    -- the machine is one with an unlimited sink that was given this room
    have hm := Machine.withRoom_unlimited hroom
    obtain ⟨bytes, hbytes⟩ := hx m.unlimited rfl
    by_cases hle : bytes.size ≤ room
    · refine ⟨bytes, ?_⟩
      have h := hbytes.fits room hle
      rw [hm] at h
      rw [h, left_leaving]
      exact congrArg Sink.written hbytes.unlimited
    · obtain ⟨m', herror, hwritten⟩ := hbytes.clipped room (by omega)
      refine ⟨bytes.extract 0 room, ?_⟩
      rw [hm] at herror
      rw [herror]
      exact congrArg Sink.written hwritten

end Exec

end Lox
