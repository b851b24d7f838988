import SmartDoor.Access.Device
import SmartDoor.Server.Buffer

/-!
# The whole device

The sketch, the line buffer and the connections are one machine; the display, to which it only
hands what is shown, is put beside it elsewhere. Its moves are the tasks of
the sketch, what the clients do, the calls of `process_server`, and a power cycle with the
`setup` that follows it, in any order. Between two power cycles a run of the machine is a run
of the server with the tasks as its environment, a run of turns of the device, and a run of
operations on the door, so that what holds in all runs of these holds in those of the machine.
-/

namespace SmartDoor

open CString

/-! ## Starting -/

/-- `setup()`, from the globals that the C runtime leaves and with a card that is found; the
trace is what was done before. -/
def Sketch.setup (world : World) (card : Card) (trace : List Effect) : Except Fault Sketch := do
  let store : Store := ⟨Pupa.zero, { card with sdcard := false }⟩
  let s := { Sketch.powerUp store with trace := trace }
  let s ← (s.delay 1000).ledPrint world (.literal "reset")
  return { s with store := ← s.store.sdcardProcess }

/-! ## Moves -/

/-- The device, what the Ethernet library holds of its clients, and the histories. `world` is
what the sketch reads of the world outside since it was started. -/
structure Machine (Conn : Type) where
  world : World
  device : Device
  activeClient : Option Conn
  status : Conn → Status
  unread : Conn → Bytes
  read : List (Conn × UInt8)
  executed : List (Executed Conn)
  sent : List (Conn × Output)

/-- What happens to the machine. -/
inductive Move (Conn : Type)
  | task (a : Task)
  | connect (client : Conn)
  | receive (client : Conn) (bytes : Bytes)
  | disconnect (client : Conn)
  | processServer (o : SdOutcome) (pick : Option Conn)
  | powerCycle (world : World)

variable {Conn : Type}

namespace Machine

/-- The machine as the server sees it. -/
def server (m : Machine Conn) : Server Conn :=
  ⟨m.device.shell, m.activeClient, m.status, m.unread, m.read, m.executed, m.sent⟩

/-- What the server has done. -/
def withServer (m : Machine Conn) (s : Server Conn) : Machine Conn where
  world := m.world
  device := ⟨{ m.device.sketch with store := s.shell.store, board := s.shell.board },
    s.shell.command, s.shell.cmdIndex⟩
  activeClient := s.activeClient
  status := s.status
  unread := s.unread
  read := s.read
  executed := s.executed
  sent := s.sent

/-- What a task has done. -/
def withSketch (m : Machine Conn) (s : Sketch) : Machine Conn :=
  { m with device := { m.device with sketch := s } }

/-- A connection of the time before is dead. -/
def cutOff : Status → Status
  | .unborn => .unborn
  | _ => .stopped

/-- The machine after the `setup` that follows a power cycle. -/
def restarted (m : Machine Conn) (world : World) (s : Sketch) : Machine Conn where
  world := world
  device := ⟨s, Vector.replicate 256 0, 0⟩
  activeClient := none
  status client := cutOff (m.status client)
  unread _ := []
  read := []
  executed := m.executed
  sent := m.sent

/-- The machine before any client. -/
def initial (Conn : Type) (world : World) (store : Store) : Machine Conn where
  world := world
  device := ⟨Sketch.powerUp store, Vector.replicate 256 0, 0⟩
  activeClient := none
  status _ := .unborn
  unread _ := []
  read := []
  executed := []
  sent := []

end Machine

/-- The moves that are events of the server. -/
def Move.event? : Move Conn → Option (Event Conn)
  | .task _ => none
  | .connect client => some (.connect client)
  | .receive client bytes => some (.receive client bytes)
  | .disconnect client => some (.disconnect client)
  | .processServer o pick => some (.processServer o pick)
  | .powerCycle _ => none

/-- What a move does. -/
def Move.step [DecidableEq Conn] (m : Machine Conn) : Move Conn → Except Fault (Machine Conn)
  | .task a => do return m.withSketch (← a.step m.world m.device.sketch)
  | .connect client => do return m.withServer (← m.server.step (.connect client))
  | .receive client bytes => do return m.withServer (← m.server.step (.receive client bytes))
  | .disconnect client => do return m.withServer (← m.server.step (.disconnect client))
  | .processServer o pick => do return m.withServer (← m.server.processServer o pick)
  | .powerCycle world => do
    return m.restarted world
      (← Sketch.setup world m.device.sketch.store.card m.device.sketch.trace)

/-- The machine, move by move. -/
def Machine.step [DecidableEq Conn] (m : Machine Conn) (mv : Move Conn) :
    Except Fault (Machine Conn) := mv.step m

/-- A power cycle. -/
def Move.Cuts : Move Conn → Prop
  | .powerCycle _ => True
  | _ => False

/-- The world that a power cycle brings up. -/
def Move.restart? : Move Conn → Option World
  | .powerCycle world => some world
  | _ => none

namespace Move

variable [DecidableEq Conn] {m n : Machine Conn} {mv : Move Conn}

/-- All that a move can be: a task, an event of the server, or a power cycle. -/
theorem step_cases (h : mv.step m = .ok n) :
    (∃ a t, mv = .task a ∧ a.step m.world m.device.sketch = .ok t ∧ n = m.withSketch t) ∨
    (∃ e s, mv.event? = some e ∧ m.server.step e = .ok s ∧ n = m.withServer s) ∨
    ∃ world s, mv = .powerCycle world ∧
      Sketch.setup world m.device.sketch.store.card m.device.sketch.trace = .ok s ∧
      n = m.restarted world s := by
  cases mv with
  | task a =>
    obtain ⟨t, ht, h⟩ := bind_eq_ok.mp h
    exact Or.inl ⟨a, t, rfl, ht, (Except.ok.inj h).symm⟩
  | powerCycle world =>
    obtain ⟨s, hs, h⟩ := bind_eq_ok.mp h
    exact Or.inr (Or.inr ⟨world, s, rfl, hs, (Except.ok.inj h).symm⟩)
  | _ =>
    obtain ⟨s, hs, h⟩ := bind_eq_ok.mp h
    exact Or.inr (Or.inl ⟨_, s, rfl, hs, (Except.ok.inj h).symm⟩)

end Move

end SmartDoor
