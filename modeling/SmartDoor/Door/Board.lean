import SmartDoor.Timer.Event
import SmartDoor.Text.Decimal
import Mathlib.Logic.Function.Basic

/-!
# The door, its flags and its timer

The variables of the sketch that decide whether the door is open: the DOOR pin,
`doorState`, `lockEvent`, `delayTime` and the Timer `t`. What `unlock_door` and
`lock_door` print, log and display does not touch these variables. Every call
of `millis()` is given the true time at which it is made, in milliseconds.
-/

namespace SmartDoor

open Timer

/-- `DOOR` -/
abbrev DOOR : UInt8 := 22

/-- The functions that the sketch hands to the timer. -/
inductive Callback
  | lockDoor
  deriving DecidableEq, Repr

/-- The part of the sketch's state that concerns the door. -/
structure Board where
  /-- The level of each output pin; `true` is HIGH. -/
  digital : UInt8 → Bool
  doorState : Bool
  lockEvent : Int
  delayTime : UInt32
  t : Events Callback

/-- `millis()` at a true time: the low 32 bits. -/
def millis (time : Nat) : UInt32 := UInt32.ofNat time

namespace Board

/-- `digitalWrite(pin, level)` -/
def digitalWrite (pin : UInt8) (level : Bool) (b : Board) : Board :=
  { b with digital := Function.update b.digital pin level }

/-- `lock_door()` -/
def lockDoor (b : Board) : Board :=
  { b.digitalWrite DOOR false with doorState := false }

/-- The first half of `unlock_door`: cancel a pending relock and open the door. -/
def openDoor (b : Board) : Board :=
  let b := if b.doorState then { b with t := stop b.lockEvent b.t } else b
  { b.digitalWrite DOOR true with doorState := true }

/-- The last statement of `unlock_door`: `lockEvent = t.after(delayTime, lock_door)`. -/
def armRelock (time : Nat) (b : Board) : Board :=
  let (t, lockEvent) := after (millis time) b.delayTime .lockDoor b.t
  { b with t := t, lockEvent := lockEvent }

/-- `unlock_door`, with the true time of its `t.after` call. -/
def unlockDoor (time : Nat) (b : Board) : Board := b.openDoor.armRelock time

/-- The sketch as the host of the Timer library. -/
def host : Host Callback Board where
  events := Board.t
  setEvents t b := { b with t := t }
  call | .lockDoor => lockDoor
  digitalWrite := digitalWrite

/-- `t.update()` at a true time. -/
def update (time : Nat) (b : Board) : Board := host.update (millis time) b

/-- `unlockButton()` with the level read from the button. -/
def unlockButton (pressed : Bool) (time : Nat) (b : Board) : Board :=
  if pressed then b.unlockDoor time else b

/-- `set_delaytime(str)` -/
def setDelaytime (str : Bytes) (b : Board) : Board :=
  if str2long str > 0 then { b with delayTime := UInt32.ofNat (str2long str).toNat } else b

/-- What the reader makes of a 0x03 byte: a checksum that fails, a code that
`isUser` does not find, or a code that it finds. -/
inductive Card
  | invalid
  | denied
  | accepted
  deriving DecidableEq, Repr

/-- `process_code`, down to the branch that `check_IDAccess` takes. -/
def processCode (card : Card) (time : Nat) (b : Board) : Board :=
  match card with
  | .accepted => b.unlockDoor time
  | .denied => b
  | .invalid => b

/-- The door when `setup` has completed: pin LOW, no event armed, and the
initial values of the globals. The idle slots may hold anything. -/
structure Setup (b : Board) : Prop where
  low : b.digital DOOR = false
  state : b.doorState = false
  free : ∀ i, ¬ Active b.t i
  delay : b.delayTime = 2000

/-- The globals as the C runtime and `setup` leave them. -/
def afterSetup : Board where
  digital _ := false
  doorState := false
  lockEvent := 0
  delayTime := 2000
  t := Vector.replicate maxNumberOfEvents ⟨.none, 0, 0, 0, 0, none, 0, 0⟩

theorem afterSetup_setup : afterSetup.Setup where
  low := rfl
  state := rfl
  free i := by simp [Active, afterSetup]
  delay := rfl

end Board

/-- The operations that touch the door, each with the time of its `millis()` call. -/
inductive Act
  | update (time : Nat)
  | button (pressed : Bool) (time : Nat)
  | delay (str : Bytes)
  | frame (card : Board.Card) (time : Nat)

/-- What an operation does to the door. -/
def Act.run (b : Board) : Act → Board
  | .update time => b.update time
  | .button pressed time => b.unlockButton pressed time
  | .delay str => b.setDelaytime str
  | .frame card time => b.processCode card time

/-- The two entry points that the Arduino core calls after `setup`. A pass of
`loop` executes at most one client command; `delay` is its argument when the
command is `4_`. A call of `serialEvent1` handles at most one 0x03 byte. -/
inductive Call
  | loop (updateAt : Nat) (pressed : Bool) (buttonAt : Nat) (delay : Option Bytes)
  | serialEvent1 (card : Option (Board.Card × Nat))

/-- The operations of a call, in the order of the source. -/
def Call.acts : Call → List Act
  | .loop updateAt pressed buttonAt delay =>
    .update updateAt :: .button pressed buttonAt :: (delay.map Act.delay).toList
  | .serialEvent1 card => (card.map fun c => Act.frame c.1 c.2).toList

/-- One call of an entry point. -/
def Call.run (b : Board) (c : Call) : Board := c.acts.foldl Act.run b

end SmartDoor
