import SmartDoor.Door.Board

/-!
# Locked and pending doors

Between two calls the door is in one of two modes. A locked door has no event
in its timer. An open door has exactly one, its relock, in the slot that
`lockEvent` names; the event remembers when it was armed and for how long. Every
operation is described by what it does to these two modes.
-/

namespace SmartDoor

open Timer

namespace Board

/-- DOOR is LOW and nothing is scheduled. -/
structure Locked (b : Board) : Prop where
  low : b.digital DOOR = false
  state : b.doorState = false
  free : ∀ i, ¬ Active b.t i

/-- DOOR is HIGH, and slot `i` holds a relock armed at `time` for `period`. -/
structure Pending (b : Board) (i : Fin maxNumberOfEvents) (time : Nat) (period : UInt32) :
    Prop where
  high : b.digital DOOR = true
  state : b.doorState = true
  slot : b.lockEvent = i.val
  active : Active b.t i
  type : b.t[i.val].eventType = .every
  period_eq : b.t[i.val].period = period
  repeatCount : b.t[i.val].repeatCount = 1
  callback : b.t[i.val].callback = some .lockDoor
  armedAt : b.t[i.val].lastEventTime = millis time
  count : b.t[i.val].count = 0
  free : ∀ j, j ≠ i → ¬ Active b.t j

/-- The two modes in which a call can leave the door. -/
def Ready (b : Board) : Prop := b.Locked ∨ ∃ i time period, b.Pending i time period

theorem Setup.locked {b : Board} (h : b.Setup) : b.Locked := ⟨h.low, h.state, h.free⟩

@[simp] theorem digitalWrite_self (pin : UInt8) (level : Bool) (b : Board) :
    (b.digitalWrite pin level).digital pin = level := by simp [digitalWrite]

/-- Whatever the mode, the first half of `unlock_door` leaves the door open with
every slot free: a pending relock is cancelled before the next one is armed. -/
theorem Ready.openDoor {b : Board} (h : b.Ready) :
    b.openDoor.digital DOOR = true ∧ b.openDoor.doorState = true ∧
      (∀ i, ¬ Active b.openDoor.t i) ∧ b.openDoor.delayTime = b.delayTime := by
  rcases h with h | ⟨i, time, period, h⟩
  · simp only [Board.openDoor, h.state, Bool.false_eq_true, ite_false]
    exact ⟨digitalWrite_self .., trivial, h.free, rfl⟩
  · simp only [Board.openDoor, h.state, ite_true]
    refine ⟨digitalWrite_self .., trivial, ?_, rfl⟩
    intro j
    change ¬ Active (stop b.lockEvent b.t) j
    rw [h.slot]
    exact stop_idle h.free j

/-- On an open door with a free timer, `t.after` finds a slot and the relock is
pending with the delay of that moment. -/
theorem armRelock_pending {b : Board} (time : Nat) (hhigh : b.digital DOOR = true)
    (hstate : b.doorState = true) (hfree : ∀ i, ¬ Active b.t i) :
    ∃ i, (b.armRelock time).Pending i time b.delayTime := by
  obtain ⟨i, hid, ht⟩ := after_of_idle (millis time) b.delayTime Callback.lockDoor hfree
  have hself : (b.armRelock time).t[i.val] = { b.t[i] with
      eventType := .every, period := b.delayTime, repeatCount := 1,
      callback := some .lockDoor, lastEventTime := millis time, count := 0 } := by
    simp only [armRelock, ht, Vector.getElem_set_self]
  refine ⟨i, ?_⟩
  constructor
  case high => exact hhigh
  case state => exact hstate
  case slot => exact hid
  case active => simp [Active, hself]
  case type => rw [hself]
  case period_eq => rw [hself]
  case repeatCount => rw [hself]
  case callback => rw [hself]
  case armedAt => rw [hself]
  case count => rw [hself]
  case free =>
    intro j hj
    have hv : i.val ≠ j.val := fun he => hj (Fin.ext he.symm)
    simpa [Active, armRelock, ht, Vector.getElem_set_ne _ _ hv] using hfree j

/-- `unlock_door` always ends with its own relock pending. -/
theorem Ready.unlockDoor {b : Board} (h : b.Ready) (time : Nat) :
    ∃ i, (b.unlockDoor time).Pending i time b.delayTime := by
  obtain ⟨hhigh, hstate, hfree, hdelay⟩ := h.openDoor
  rw [← hdelay]
  exact armRelock_pending time hhigh hstate hfree

theorem Ready.unlocked {b : Board} (h : b.Ready) (time : Nat) : (b.unlockDoor time).Ready := by
  obtain ⟨i, hpending⟩ := h.unlockDoor time
  exact Or.inr ⟨i, time, b.delayTime, hpending⟩

/-- A locked door has nothing to update. -/
theorem Locked.update {b : Board} (h : b.Locked) (time : Nat) : b.update time = b :=
  host.update_of_idle _ h.free

theorem host_lawful : host.Lawful := ⟨fun _ _ => rfl, fun _ _ _ => rfl⟩

/-- The pending relock is the only event of the timer, and it fires once. -/
theorem Pending.oneShot {b : Board} {i : Fin maxNumberOfEvents} {time : Nat} {period : UInt32}
    (h : b.Pending i time period) : OneShot b.t i .lockDoor :=
  ⟨h.type, h.callback, h.repeatCount, h.count, h.free⟩

/-- The comparison that the timer makes for the pending relock. -/
theorem Pending.due_iff {b : Board} {i : Fin maxNumberOfEvents} {time : Nat} {period : UInt32}
    (h : b.Pending i time period) (now : Nat) :
    (b.t.get i).period ≤ millis now - (b.t.get i).lastEventTime ↔
      period ≤ millis now - millis time := by
  have hperiod : (b.t.get i).period = period := h.period_eq
  have harmed : (b.t.get i).lastEventTime = millis time := h.armedAt
  rw [hperiod, harmed]

/-- While the delay has not elapsed on the 32-bit clock, updates change nothing. -/
theorem Pending.update_early {b : Board} {i : Fin maxNumberOfEvents} {time : Nat}
    {period : UInt32} (h : b.Pending i time period) {now : Nat}
    (hnow : ¬ period ≤ millis now - millis time) : b.update now = b :=
  host.update_oneShot_early h.oneShot fun hdue => hnow ((h.due_iff now).mp hdue)

/-- A door that was locked when its relock fired. -/
theorem Pending.locked_spent {b : Board} {i : Fin maxNumberOfEvents} {time : Nat}
    {period : UInt32} (h : b.Pending i time period) (now : UInt32) :
    Locked { b.lockDoor with t := spent i now b.t } :=
  ⟨digitalWrite_self DOOR false b, rfl, h.oneShot.spent_free now⟩

/-- Once the delay has elapsed on the 32-bit clock, the next update locks the
door and the one-shot event frees its own slot. -/
theorem Pending.update_due {b : Board} {i : Fin maxNumberOfEvents} {time : Nat}
    {period : UInt32} (h : b.Pending i time period) {now : Nat}
    (hnow : period ≤ millis now - millis time) :
    (b.update now).Locked ∧ (b.update now).delayTime = b.delayTime := by
  have hupdate : b.update now = { b.lockDoor with t := spent i (millis now) b.t } :=
    host.update_oneShot_due host_lawful h.oneShot ((h.due_iff now).mpr hnow) rfl
  rw [hupdate]
  exact ⟨h.locked_spent _, rfl⟩

/-- Setting the delay leaves a pending relock as it was armed. -/
theorem Pending.setDelaytime {b : Board} {i : Fin maxNumberOfEvents} {time : Nat}
    {period : UInt32} (h : b.Pending i time period) (str : Bytes) :
    (b.setDelaytime str).Pending i time period := by
  unfold Board.setDelaytime
  split
  · exact ⟨h.high, h.state, h.slot, h.active, h.type, h.period_eq, h.repeatCount, h.callback,
      h.armedAt, h.count, h.free⟩
  · exact h

theorem Locked.setDelaytime {b : Board} (h : b.Locked) (str : Bytes) :
    (b.setDelaytime str).Locked := by
  unfold Board.setDelaytime
  split
  · exact ⟨h.low, h.state, h.free⟩
  · exact h

theorem Ready.setDelaytime {b : Board} (h : b.Ready) (str : Bytes) :
    (b.setDelaytime str).Ready := by
  rcases h with h | ⟨i, time, period, h⟩
  · exact Or.inl (h.setDelaytime str)
  · exact Or.inr ⟨i, time, period, h.setDelaytime str⟩

theorem Ready.update {b : Board} (h : b.Ready) (now : Nat) : (b.update now).Ready := by
  rcases h with h | ⟨i, time, period, h⟩
  · rw [h.update]
    exact Or.inl h
  · by_cases hnow : period ≤ millis now - millis time
    · exact Or.inl (h.update_due hnow).1
    · rw [h.update_early hnow]
      exact Or.inr ⟨i, time, period, h⟩

end Board

open Board

/-- Every operation takes a ready door to a ready door. -/
theorem Act.run_ready {b : Board} (h : b.Ready) (a : Act) : (a.run b).Ready := by
  cases a with
  | update time => exact h.update time
  | button pressed time =>
    cases pressed
    · exact h
    · exact h.unlocked time
  | delay str => exact h.setDelaytime str
  | frame card time =>
    cases card
    · exact h
    · exact h
    · exact h.unlocked time

theorem foldl_act_ready {b : Board} (h : b.Ready) (acts : List Act) :
    (acts.foldl Act.run b).Ready := by
  induction acts generalizing b with
  | nil => exact h
  | cons a acts ih => exact ih (a.run_ready h)

/-- Every sequence of calls, in any order, leaves the door in one of the two modes. -/
theorem foldl_call_ready {b : Board} (h : b.Ready) (calls : List Call) :
    (calls.foldl Call.run b).Ready := by
  induction calls generalizing b with
  | nil => exact h
  | cons c calls ih => exact ih (foldl_act_ready h c.acts)

/-- The door and timer invariant: `doorState` tells the level of DOOR and whether
a relock is pending; the pending event is the one in slot `lockEvent`, it will
call `lock_door` once and has not yet done so, no other slot is active, and
another `unlock_door` would find a slot. -/
theorem door_timer_invariant {b : Board} (hb : b.Setup) (calls : List Call) :
    let s := calls.foldl Call.run b
    (s.doorState = true ↔ s.digital DOOR = true) ∧
    (s.doorState = true ↔ ∃! i, Active s.t i) ∧
    (s.doorState = false → ∀ i, ¬ Active s.t i) ∧
    (∀ i, Active s.t i → s.lockEvent = i.val ∧ (s.t.get i).callback = some .lockDoor ∧
      (s.t.get i).repeatCount = 1 ∧ (s.t.get i).count = 0) ∧
    ∀ time, (s.unlockDoor time).lockEvent ≠ noTimerAvailable := by
  intro s
  have hs : s.Ready := foldl_call_ready (Or.inl hb.locked) calls
  have hafter : ∀ time, (s.unlockDoor time).lockEvent ≠ noTimerAvailable := by
    intro time
    obtain ⟨i, hp⟩ := hs.unlockDoor time
    rw [hp.slot]
    simp only [noTimerAvailable]
    omega
  rcases hs with h | ⟨i, time, period, h⟩
  · refine ⟨by simp [h.state, h.low], ?_, fun _ => h.free, fun i hi => absurd hi (h.free i),
      hafter⟩
    rw [h.state]
    simp only [Bool.false_eq_true, false_iff]
    rintro ⟨i, hi, _⟩
    exact h.free i hi
  · have honly : ∀ j, Active s.t j → j = i := fun j hj => by
      by_contra hne
      exact h.free j hne hj
    refine ⟨by simp [h.state, h.high], ?_, fun hf => ?_, ?_, hafter⟩
    · simp only [h.state, true_iff]
      exact ⟨i, h.active, honly⟩
    · rw [h.state] at hf
      cases hf
    · intro j hj
      obtain rfl := honly j hj
      exact ⟨h.slot, h.callback, h.repeatCount, h.count⟩

/-- A button held over two passes and an accepted card, on the globals as they start. -/
theorem door_timer_invariant_afterSetup :
    let s := [Call.loop 10 true 11 none, .loop 12 true 13 none,
      .serialEvent1 (some (.accepted, 14))].foldl Call.run afterSetup
    s.doorState = true ↔ ∃! i, Active s.t i :=
  (door_timer_invariant afterSetup_setup _).2.1

end SmartDoor
