import SmartDoor.Card.Store
import SmartDoor.Door.Board

/-!
# The sketch between the card reader and the door

The reader sends frames: 0x02, ten characters of the code, two of the checksum,
and 0x03. `serialEvent1` collects the characters in the twelve bytes of `code`;
at a 0x03 `process_code` checks the sum and hands the buffer, as a string, to
`check_IDAccess`, which unlocks the door or denies access. The lookups on the way
trim `code` and the table in place. What is shown on the display, the waits and
the level written to the pins are recorded in the order in which they happen;
what is printed to the debugging port is left out, and its lookups are kept.
-/

namespace SmartDoor

open CString

/-- The bytes of a string literal, without the terminator. -/
def ascii (s : String) : Bytes := s.toList.map fun c => UInt8.ofNat c.toNat

/-- What `print` of an integer sends. -/
def decimal (n : Nat) : Bytes := (Nat.toDigits 10 n).map fun c => UInt8.ofNat c.toNat

/-- The fields of `tm` that the sketch reads. -/
structure Tm where
  minute : UInt8
  hour : UInt8
  day : UInt8
  month : UInt8
  year : UInt8

/-- What the sketch does to the world outside. -/
inductive Effect
  | digitalWrite (pin : UInt8) (level : Bool)
  | display (lines : List Bytes)
  | delay (ms : Nat)
  deriving DecidableEq, Repr

/-- The receive buffer of `Serial1`, and all bytes that were read from it so far. -/
structure Serial1 where
  buffer : Bytes
  seen : Bytes

/-- The state of the sketch; `clock` is the true time in milliseconds. -/
structure Sketch where
  code : Vector UInt8 12
  ci : Nat
  store : Store
  board : Board
  tm : Tm
  clock : Nat
  serial1 : Serial1
  trace : List Effect

/-- The globals when the C runtime starts the sketch, with the members that `setup` has
read. -/
def Sketch.powerUp (store : Store) : Sketch where
  code := Vector.replicate 12 0
  ci := 0
  store := store
  board := .afterSetup
  tm := ⟨0, 0, 0, 0, 0⟩
  clock := 0
  serial1 := ⟨[], []⟩
  trace := []

/-- What the sketch reads from the world outside: the real-time clock, and whether
`SD.open` of the log succeeds, each at a true time. -/
structure World where
  rtc : Nat → Tm
  logOpens : Nat → Bool

/-- A `char*` that the sketch passes around. -/
inductive Str
  | literal (text : String)
  | code
  | memberName (i : Fin MEMBER)

/-- Why `unlock_door` is called. -/
inductive UnlockType
  | card
  | button
  deriving DecidableEq, Repr

namespace Sketch

/-- The memory from a pointer on. -/
def memory (s : Sketch) : Str → Bytes
  | .literal text => ascii text ++ [0]
  | .code => s.code.toList
  | .memberName i => (s.store.pupa.get i).memberName.toList

/-- Record what the sketch does. -/
def emit (e : Effect) (s : Sketch) : Sketch := { s with trace := s.trace ++ [e] }

/-- `delay(ms)` -/
def delay (ms : Nat) (s : Sketch) : Sketch := { s with clock := s.clock + ms }.emit (.delay ms)

/-- `isUser((char*)code)` -/
def isUserCode (s : Sketch) : Except Fault (Int × Sketch) := do
  let (member, pupa, code) ← isUser s.store.pupa s.code 0
  return (member, { s with store := { s.store with pupa := pupa }, code := code })

/-- `pupa[member].member_name` -/
def memberName (member : Int) : Except Fault Str :=
  if h : 0 ≤ member ∧ member < MEMBER then .ok (.memberName ⟨member.toNat, by omega⟩)
  else .error .overread

section World

variable (world : World)

/-- `LEDprint(text)`. The date and time that it shows first are read from the clock. -/
def ledPrint (text : Str) (s : Sketch) : Except Fault Sketch := do
  let s := { s with tm := world.rtc s.clock }
  if ← streq (s.memory text) (ascii "reset" ++ [0]) then
    return s.emit (.display [ascii "ATTACH", ascii "RFCARD"])
  else if ← streq (s.memory text) (ascii "Denied" ++ [0]) then
    return s.emit (.display [ascii "Access", ascii "Denied"])
  else do
    let (member, s) ← s.isUserCode
    let unknown ← if member ≥ 0 then streq s.code.toList [0] else pure true
    let shown ← puts (s.memory text)
    return s.emit (.display (if unknown then [shown] else [ascii "Hello", shown]))

/-- The record that `writeLOG` prints. -/
def logRecord (tm : Tm) (username id : Bytes) : Bytes :=
  decimal tm.day.toNat ++ ascii "/" ++ decimal tm.month.toNat ++ ascii "/" ++
    decimal (tm.year.toNat + 1970) ++ ascii "   " ++ decimal tm.hour.toNat ++ ascii ":" ++
    decimal tm.minute.toNat ++ ascii "   " ++ id ++ ascii "   " ++ username ++ [13, 10]

/-- `writeLOG(username, id)` -/
def writeLOG (username id : Str) (s : Sketch) : Except Fault Sketch := do
  let id ← puts (s.memory id)
  let username ← puts (s.memory username)
  let log := s.store.card.activity
  let record := logRecord s.tm username id
  let log := if world.logOpens s.clock then some (log.getD [] ++ record) else log
  return { s with store := { s.store with card := { s.store.card with activity := log } } }

/-- `unlock_door(type)` -/
def unlockDoor (type : UnlockType) (s : Sketch) : Except Fault Sketch := do
  let s := { s with board := s.board.openDoor }.emit (.digitalWrite DOOR true)
  let s ← match type with
    | .card => do
      let (member, s) ← s.isUserCode
      let _ ← puts (s.memory (← memberName member))
      let (member, s) ← s.isUserCode
      let s ← s.ledPrint world (← memberName member)
      let (member, s) ← s.isUserCode
      s.writeLOG world (← memberName member) .code
    | .button => do
      let s ← s.ledPrint world (.literal "UNLOCK by SWITCH")
      s.writeLOG world (.literal "Member") (.literal "unlock by switch")
  return { s with board := s.board.armRelock s.clock }

/-- `check_IDAccess()` -/
def checkIDAccess (s : Sketch) : Except Fault Sketch := do
  let (member, s) ← s.isUserCode
  if member ≥ 0 then s.unlockDoor world .card
  else do
    let s ← s.ledPrint world (.literal "Denied")
    let s ← s.writeLOG world (.literal "Unknown User") .code
    let s ← (s.delay 1000).ledPrint world .code
    (s.delay 5000).ledPrint world (.literal "reset")

/-- `unlockButton()` with the level read from the button. -/
def unlockButton (pressed : Bool) (s : Sketch) : Except Fault Sketch :=
  if pressed then s.unlockDoor world .button else .ok s

end World

end Sketch

/-! ## Frames -/

/-- `hexchar2b(hex)`. For another character it falls off its end, and what the caller
then finds is unspecified. -/
def hexchar2b (unspecified hex : UInt8) : UInt8 :=
  if 48 ≤ hex ∧ hex ≤ 57 then hex - 48
  else if 65 ≤ hex ∧ hex ≤ 70 then 10 + (hex - 65)
  else unspecified

/-- `hexstr2b(a, b)` -/
def hexstr2b (junk : UInt8 × UInt8) (a b : UInt8) : UInt8 :=
  hexchar2b junk.1 a * 16 + hexchar2b junk.2 b

/-- What each call of `hexchar2b` in a call of `process_code` answers if it falls off
its end. -/
abbrev Junk := Vector UInt8 12

/-- `hexstr2b(code[i * 2], code[i * 2 + 1])` -/
def hexPair (junk : Junk) (code : Vector UInt8 12) (i : Fin 6) : UInt8 :=
  hexstr2b (junk[i.val * 2], junk[i.val * 2 + 1]) code[i.val * 2] code[i.val * 2 + 1]

/-- The test of `process_code`: the checksum is that of the five pairs before it. -/
def validTag (junk : Junk) (code : Vector UInt8 12) : Bool :=
  [1, 2, 3, 4].foldl (fun test i => test ^^^ hexPair junk code i) (hexPair junk code 0) =
    hexPair junk code 5

/-- `code[10] = '\r'` and `code[11] = '\0'` -/
def endCode (code : Vector UInt8 12) : Vector UInt8 12 := (code.set 10 13).set 11 0

namespace Sketch

/-- `process_code()` -/
def processCode (world : World) (junk : Junk) (s : Sketch) : Except Fault Sketch :=
  if validTag junk s.code then { s with code := endCode s.code }.checkIDAccess world else .ok s

/-- The loop of `serialEvent1` with a budget of `left` bytes, up to the `break` after a
0x03. The answer says whether it has read one. -/
def serialScan : Nat → Sketch → Sketch × Bool
  | 0, s => (s, false)
  | left + 1, s =>
    match s.serial1.buffer with
    | [] => (s, false)
    | val :: buffer =>
      let s := { s with serial1 := ⟨buffer, s.serial1.seen ++ [val]⟩ }
      if val = 0x02 then serialScan left { s with ci := 0 }
      else if val = 0x0D ∨ val = 0x0A then serialScan left s
      else if val = 0x03 then (s, true)
      else if h : s.ci < 12 then
        serialScan left { s with code := s.code.set s.ci val, ci := s.ci + 1 }
      else serialScan left s

/-- `serialEvent1()` -/
def serialEvent1 (world : World) (junk : Junk) (s : Sketch) : Except Fault Sketch :=
  let (s, etx) := s.serialScan 16
  if etx then s.processCode world junk else .ok s

end Sketch

end SmartDoor
