import SmartDoor.Access.Delivery
import SmartDoor.Door.Relock

/-!
# The tasks of the sketch

A pass of `loop` updates the timer and the clock and reads the button; between two
passes the core calls `serialEvent1`, and time goes by. These tasks run in any order.
What each of them leaves behind is said once, and whether it stays inside the twelve
bytes of `code`: only the button looks at `code` without having ended it first.
-/

namespace SmartDoor

open CString Timer

namespace Sketch

section World

variable (world : World)

/-- `lock_door()`. What `LEDprint("reset")` displays is written out. -/
def lockDoor (s : Sketch) : Sketch :=
  ({ s with board := s.board.lockDoor }.emit (.digitalWrite DOOR false)).shown world
    [ascii "ATTACH", ascii "RFCARD"]

/-- The sketch as the host of the Timer library. -/
def host : Host Callback Sketch where
  events s := s.board.t
  setEvents t s := { s with board := { s.board with t := t } }
  call | .lockDoor => lockDoor world
  digitalWrite pin level s :=
    { s with board := s.board.digitalWrite pin level }.emit (.digitalWrite pin level)

/-- `t.update()` -/
def update (s : Sketch) : Sketch := (host world).update (millis s.clock) s

/-- `updateTime(tm.Minute)`. Its own `printDateAndTime` reads the clock as the one in
`LEDprint` does. -/
def updateTime (s : Sketch) : Except Fault Sketch :=
  let minute := s.tm.minute
  let s := { s with tm := world.rtc s.clock }
  if minute ≠ s.tm.minute then s.ledPrint world (.literal "reset") else .ok s

end World

end Sketch

/-- What the sketch does between two moments: the calls of `loop`, bytes that arrive with
a call of `serialEvent1`, and time that goes by. -/
inductive Task
  | update
  | updateTime
  | unlockButton (pressed : Bool)
  | serialEvent1 (arrived : Bytes) (junk : Junk)
  | wait (ms : Nat)
  deriving DecidableEq

/-- A task at the time of the clock. -/
def Task.step (world : World) (s : Sketch) : Task → Except Fault Sketch
  | .update => .ok (s.update world)
  | .updateTime => s.updateTime world
  | .unlockButton pressed => s.unlockButton world pressed
  | .serialEvent1 arrived junk => (s.arrive arrived).serialEvent1 world junk
  | .wait ms => .ok { s with clock := s.clock + ms }

/-! ## The timer -/

namespace Sketch

/-- `LEDprint("reset")` shows its screen, whatever the strings of the sketch are. -/
theorem ledPrint_reset (world : World) (s : Sketch) :
    s.ledPrint world (.literal "reset") =
      .ok (s.shown world [ascii "ATTACH", ascii "RFCARD"]) := by
  have hterm : Terminated (ascii "reset" ++ [0]) :=
    List.mem_append_right _ (List.mem_singleton_self 0)
  rw [ledPrint]
  simp only [Sketch.memory]
  rw [streq_eq hterm hterm, decide_eq_true rfl, ok_bind, if_pos rfl]
  rfl

theorem host_lawful (world : World) : (host world).Lawful := ⟨fun _ _ => rfl, fun _ _ _ => rfl⟩

/-- An update either does nothing, or it locks the door and frees the timer. -/
theorem update_cases (world : World) {s : Sketch} (h : s.board.Ready) :
    s.update world = s ∨ ∃ t, s.update world =
        { s.lockDoor world with board := { s.board.lockDoor with t := t } } ∧
      Board.Locked { s.board.lockDoor with t := t } := by
  rcases h with h | ⟨i, time, period, h⟩
  · exact Or.inl ((host world).update_of_idle _ h.free)
  · by_cases hdue : period ≤ millis s.clock - millis time
    · right
      refine ⟨spent i (millis s.clock) s.board.t, ?_, h.locked_spent _⟩
      exact (host world).update_oneShot_due (host_lawful world) h.oneShot
        ((h.due_iff s.clock).mpr hdue) rfl
    · left
      exact (host world).update_oneShot_early h.oneShot fun hd => hdue ((h.due_iff s.clock).mp hd)

/-- The board of the sketch follows the timer as the board alone does. -/
theorem board_update (world : World) {s : Sketch} (h : s.board.Ready) :
    (s.update world).board = s.board.update s.clock := by
  rcases h with h | ⟨i, time, period, h⟩
  · rw [h.update]
    exact congrArg Sketch.board ((host world).update_of_idle _ h.free)
  · by_cases hdue : period ≤ millis s.clock - millis time
    · have hboard : s.board.update s.clock =
          { s.board.lockDoor with t := spent i (millis s.clock) s.board.t } :=
        Board.host.update_oneShot_due Board.host_lawful h.oneShot
          ((h.due_iff s.clock).mpr hdue) rfl
      rw [hboard]
      exact congrArg Sketch.board ((host world).update_oneShot_due (host_lawful world) h.oneShot
        ((h.due_iff s.clock).mpr hdue) rfl)
    · rw [h.update_early hdue]
      exact congrArg Sketch.board ((host world).update_oneShot_early h.oneShot
        fun hd => hdue ((h.due_iff s.clock).mp hd))

/-- `updateTime` reads the clock, and may display. -/
theorem updateTime_eq (world : World) (s : Sketch) : ∃ fx,
    s.updateTime world = .ok { s with tm := world.rtc s.clock, trace := s.trace ++ fx } ∧
      ∀ e ∈ fx, ∃ lines, e = .display lines := by
  rw [updateTime]
  simp only
  split
  · refine ⟨[.display [ascii "ATTACH", ascii "RFCARD"]], ledPrint_reset world _, ?_⟩
    intro e he
    exact ⟨_, List.mem_singleton.mp he⟩
  · exact ⟨[], by rw [List.append_nil], fun e he => absurd he List.not_mem_nil⟩

/-! ## The reader -/

/-- Bytes were read: the code, the index and the receive buffer may differ. -/
def Scanned (s t : Sketch) : Prop :=
  ∃ code ci serial1, t = { s with code := code, ci := ci, serial1 := serial1 }

/-- The sketch when `serialEvent1` calls `check_IDAccess`, if it does. -/
def presents (junk : Junk) (s : Sketch) : Option Sketch :=
  let (u, etx) := s.serialScan 16
  if etx ∧ validTag junk u.code then some { u with code := endCode u.code } else none

theorem serialEvent1_eq (world : World) (junk : Junk) (s : Sketch) :
    s.serialEvent1 world junk = match s.presents junk with
      | some u => u.checkIDAccess world
      | none => .ok (s.serialScan 16).1 := by
  rw [serialEvent1, presents]
  generalize s.serialScan 16 = r
  obtain ⟨u, etx⟩ := r
  cases etx with
  | false => rfl
  | true =>
    simp only [processCode, if_true, true_and]
    by_cases hvalid : validTag junk u.code = true
    · simp only [if_pos hvalid]
    · simp only [if_neg hvalid]

theorem scanned_serialScan (s : Sketch) (left : Nat) : s.Scanned (s.serialScan left).1 := by
  obtain ⟨bytes, rest, code, ci, -, hstate, -⟩ := s.serialScan_eq (fun _ => 0) [] left
  exact ⟨code, ci, _, hstate⟩

/-- What `check_IDAccess` is given is what was read, with its end. -/
theorem presents_eq {junk : Junk} {s u : Sketch} (h : s.presents junk = some u) :
    u = { (s.serialScan 16).1 with code := endCode (s.serialScan 16).1.code } := by
  rw [presents] at h
  generalize s.serialScan 16 = r at h
  obtain ⟨v, etx⟩ := r
  simp only at h
  split at h
  · exact (Option.some.inj h).symm
  · cases h

/-- What `check_IDAccess` is given is a string. -/
theorem presents_scanned {junk : Junk} {s u : Sketch} (h : s.presents junk = some u) :
    s.Scanned u ∧ Terminated u.code.toList := by
  obtain ⟨code, ci, serial1, hscan⟩ := s.scanned_serialScan 16
  have hu := presents_eq h
  rw [hscan] at hu
  rw [hu]
  exact ⟨⟨_, _, _, rfl⟩, terminated_endCode _⟩

/-! ## The button -/

/-- The display of a button unlock looks the code up, which ends on a string only. -/
theorem terminated_of_unlockDoor_button {world : World} {s t : Sketch}
    (h : s.unlockDoor world .button = .ok t) : Terminated s.code.toList := by
  rw [unlockDoor] at h
  obtain ⟨u, hprint, -⟩ := bind_eq_ok.mp h
  have hreset : streq (ascii "UNLOCK by SWITCH" ++ [0]) (ascii "reset" ++ [0]) = .ok false := by
    decide +kernel
  have hdenied : streq (ascii "UNLOCK by SWITCH" ++ [0]) (ascii "Denied" ++ [0]) = .ok false := by
    decide +kernel
  simp only [ledPrint, memory] at hprint
  rw [hreset, ok_bind, if_neg (by decide), hdenied, ok_bind, if_neg (by decide)] at hprint
  obtain ⟨r, hr, -⟩ := bind_eq_ok.mp hprint
  obtain ⟨q, hq, -⟩ := bind_eq_ok.mp hr
  exact terminated_of_isUser (p := 0) hq

/-! ## Steps -/

/-- No access decision: the door may be locked, lines may be displayed, time may go by. -/
structure Idles (s t : Sketch) : Prop where
  code : t.code = s.code
  serial1 : t.serial1 = s.serial1
  store : t.store = s.store
  board : t.board.Ready
  trace : ∃ fx, t.trace = s.trace ++ fx ∧
    ∀ e ∈ fx, e = .digitalWrite DOOR false ∨ ∃ lines, e = .display lines

theorem Idles.refl {s : Sketch} (h : s.board.Ready) : s.Idles s :=
  ⟨rfl, rfl, rfl, h, [], (List.append_nil _).symm, fun _ he => absurd he List.not_mem_nil⟩

theorem idles_update (world : World) {s : Sketch} (h : s.board.Ready) :
    s.Idles (s.update world) := by
  rcases update_cases world h with hsame | ⟨t, hlock, hlocked⟩
  · rw [hsame]
    exact Idles.refl h
  · rw [hlock]
    refine ⟨rfl, rfl, rfl, Or.inl hlocked,
      [.digitalWrite DOOR false, .display [ascii "ATTACH", ascii "RFCARD"]],
      List.append_assoc _ _ _, ?_⟩
    intro e he
    rcases List.mem_pair.mp he with rfl | rfl
    · exact Or.inl rfl
    · exact Or.inr ⟨_, rfl⟩

end Sketch

namespace Task

open Sketch

/-- The sketch after the bytes that a task reads. -/
def scanned (s : Sketch) : Task → Sketch
  | .serialEvent1 arrived _ => ((s.arrive arrived).serialScan 16).1
  | _ => s

/-- The sketch when a task first hands `code` to a string function, if it does. -/
def presents (s : Sketch) : Task → Option Sketch
  | .unlockButton true => some s
  | .serialEvent1 arrived junk => (s.arrive arrived).presents junk
  | _ => none

variable {world : World} {s t : Sketch} {a : Task}

theorem scanned_scanned (s : Sketch) (a : Task) : s.Scanned (a.scanned s) := by
  cases a with
  | serialEvent1 arrived junk =>
    obtain ⟨code, ci, serial1, hscan⟩ := (s.arrive arrived).scanned_serialScan 16
    exact ⟨code, ci, serial1, hscan⟩
  | _ => exact ⟨s.code, s.ci, s.serial1, rfl⟩

/-- Each task succeeds, except for a button press on a `code` without a terminator. -/
theorem step_ok_iff (hpupa : s.store.pupa.Terminated) :
    (∃ t, a.step world s = .ok t) ↔ (a = .unlockButton true → Terminated s.code.toList) := by
  have hother : a ≠ .unlockButton true → (∃ t, a.step world s = .ok t) →
      ((∃ t, a.step world s = .ok t) ↔
        (a = .unlockButton true → Terminated s.code.toList)) := fun hne hok =>
    ⟨fun _ h => absurd h hne, fun _ => hok⟩
  cases a with
  | update => exact hother (fun h => by cases h) ⟨_, rfl⟩
  | updateTime =>
    obtain ⟨fx, h, -⟩ := s.updateTime_eq world
    exact hother (fun h => by cases h) ⟨_, h⟩
  | unlockButton pressed =>
    cases pressed with
    | false => exact hother (fun h => by cases h) ⟨_, rfl⟩
    | true =>
      constructor
      · rintro ⟨t, ht⟩ -
        exact terminated_of_unlockDoor_button ht
      · intro h
        have hs : s.Strings := ⟨h rfl, hpupa⟩
        obtain ⟨lines, ht⟩ := hs.unlockDoor_button world
        exact ⟨_, ht⟩
  | serialEvent1 arrived junk =>
    apply hother (fun h => by cases h)
    rw [step, serialEvent1_eq]
    cases hpresents : (s.arrive arrived).presents junk with
    | none => exact ⟨_, rfl⟩
    | some u =>
      obtain ⟨⟨code, ci, serial1, rfl⟩, hcode⟩ := presents_scanned hpresents
      obtain ⟨t, ht, -⟩ := Strings.checkIDAccess_reader ⟨hcode, hpupa⟩ world
      exact ⟨t, ht⟩
  | wait ms => exact hother (fun h => by cases h) ⟨_, rfl⟩

/-- All that a step can do: it makes no access decision, or the button unlocks the door, or
the code of a card is looked up and the door is unlocked or access is denied. -/
theorem step_cases (hpupa : s.store.pupa.Terminated) (hready : s.board.Ready)
    (h : a.step world s = .ok t) :
    (a.presents s = none ∧ (a.scanned s).Idles t) ∨
    (a = .unlockButton true ∧ s.Strings ∧ ∃ lines, t = s.searched.entered world
      (ascii "Member") (ascii "unlock by switch") lines) ∨
    ∃ arrived junk u, a = .serialEvent1 arrived junk ∧ (s.arrive arrived).presents junk = some u ∧
      u.Strings ∧
      ((∃ k lines, u.store.pupa.lookup u.presented = some k ∧ t = u.searched.entered world
        (content (u.searched.store.pupa.get k).memberName.toList)
        (content u.searched.code.toList) lines) ∨
      u.store.pupa.lookup u.presented = none ∧ ∃ denied text reset, t =
        u.searched.refused world (content u.searched.code.toList) denied text reset) := by
  cases a with
  | update =>
    obtain rfl := Except.ok.inj h
    exact Or.inl ⟨rfl, idles_update world hready⟩
  | updateTime =>
    obtain ⟨fx, hstep, hfx⟩ := s.updateTime_eq world
    obtain rfl := Except.ok.inj (hstep.symm.trans h)
    exact Or.inl ⟨rfl, rfl, rfl, rfl, hready, fx, rfl, fun e he => Or.inr (hfx e he)⟩
  | unlockButton pressed =>
    cases pressed with
    | false =>
      obtain rfl := Except.ok.inj h
      exact Or.inl ⟨rfl, Idles.refl hready⟩
    | true =>
      have hs : s.Strings := ⟨terminated_of_unlockDoor_button h, hpupa⟩
      obtain ⟨lines, ht⟩ := hs.unlockDoor_button world
      exact Or.inr (Or.inl ⟨rfl, hs, lines, Except.ok.inj (h.symm.trans ht)⟩)
  | serialEvent1 arrived junk =>
    rw [step, serialEvent1_eq] at h
    cases hpresents : (s.arrive arrived).presents junk with
    | none =>
      rw [hpresents] at h
      obtain rfl := Except.ok.inj h
      left
      obtain ⟨code, ci, serial1, hscan⟩ := (s.arrive arrived).scanned_serialScan 16
      have hboard : ((s.arrive arrived).serialScan 16).1.board.Ready := by
        rw [hscan]
        exact hready
      exact ⟨hpresents, Idles.refl hboard⟩
    | some u =>
      rw [hpresents] at h
      have hs : u.Strings := by
        obtain ⟨⟨code, ci, serial1, rfl⟩, hcode⟩ := presents_scanned hpresents
        exact ⟨hcode, hpupa⟩
      refine Or.inr (Or.inr ⟨arrived, junk, u, rfl, hpresents, hs, ?_⟩)
      cases hl : u.store.pupa.lookup u.presented with
      | some k =>
        obtain ⟨lines, ht⟩ := hs.checkIDAccess_accepted world hl
        exact Or.inl ⟨k, lines, rfl, Except.ok.inj (h.symm.trans ht)⟩
      | none =>
        obtain ⟨denied, text, reset, ht⟩ := hs.checkIDAccess_denied world hl
        exact Or.inr ⟨rfl, denied, text, reset, Except.ok.inj (h.symm.trans ht)⟩
  | wait ms =>
    obtain rfl := Except.ok.inj h
    exact Or.inl ⟨rfl, rfl, rfl, rfl, hready, [], (List.append_nil _).symm,
      fun e he => absurd he List.not_mem_nil⟩

/-- A step leaves the table as it was, or as a lookup leaves it, the member file as it was,
and the door ready. -/
theorem step_kept (hpupa : s.store.pupa.Terminated) (hready : s.board.Ready)
    (h : a.step world s = .ok t) :
    (t.store.pupa = s.store.pupa ∨ ∃ user, t.store.pupa = (s.store.pupa.searched user).2) ∧
      t.store.card.idaccess = s.store.card.idaccess ∧ t.board.Ready := by
  rcases step_cases hpupa hready h with ⟨-, hidle⟩ | ⟨-, -, lines, rfl⟩ |
    ⟨arrived, junk, u, rfl, hpresents, -, hcard⟩
  · obtain ⟨code, ci, serial1, hscan⟩ := scanned_scanned s a
    have hstore : t.store = s.store := by rw [hidle.store, hscan]
    rw [hstore]
    exact ⟨Or.inl rfl, rfl, hidle.board⟩
  · exact ⟨Or.inr ⟨s.presented, rfl⟩, rfl, hready.unlocked s.clock⟩
  · obtain ⟨⟨code, ci, serial1, rfl⟩, -⟩ := presents_scanned hpresents
    rcases hcard with ⟨k, lines, -, rfl⟩ | ⟨-, denied, text, reset, rfl⟩
    · exact ⟨Or.inr ⟨_, rfl⟩, rfl, hready.unlocked s.clock⟩
    · exact ⟨Or.inr ⟨_, rfl⟩, rfl, hready⟩

/-! ## The buffer as a string -/

/-- The contents of `code` that a task hands to the string functions: as it finds them, and
as the first lookup leaves them. -/
def handed (s : Sketch) (a : Task) : List (Vector UInt8 12) :=
  match a.presents s with
  | some u => [u.code, trimAt u.code 0]
  | none => []

/-- A task stays inside the arrays, and what it hands to the string functions is a string. -/
def Inside (world : World) (s : Sketch) (a : Task) : Prop :=
  (∃ t, a.step world s = .ok t) ∧ ∀ code ∈ a.handed s, Terminated code.toList

theorem inside_iff (hpupa : s.store.pupa.Terminated) :
    a.Inside world s ↔ (a = .unlockButton true → Terminated s.code.toList) := by
  constructor
  · intro h
    exact (step_ok_iff hpupa).mp h.1
  · intro h
    refine ⟨(step_ok_iff hpupa).mpr h, fun code hcode => ?_⟩
    rw [handed] at hcode
    cases hu : a.presents s with
    | none =>
      rw [hu] at hcode
      exact absurd hcode List.not_mem_nil
    | some u =>
      rw [hu] at hcode
      have hterm : Terminated u.code.toList := by
        cases a with
        | unlockButton pressed =>
          cases pressed with
          | false => cases hu
          | true =>
            obtain rfl := Option.some.inj hu
            exact h rfl
        | serialEvent1 arrived junk => exact (presents_scanned hu).2
        | _ => cases hu
      rcases List.mem_pair.mp hcode with rfl | rfl
      · exact hterm
      · exact terminated_trimAt (p := 0) hterm

end Task

/-- A clock that stands still, and a log that opens. -/
def World.still : World := ⟨fun _ => ⟨0, 0, 1, 1, 45⟩, fun _ => true⟩

end SmartDoor
