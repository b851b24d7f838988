import SmartDoor.Server.Command
import SmartDoor.Run.Guarded

/-!
# Command lines and connections

The server has one line buffer for all its clients. `process_server` turns to a newer
client with unread bytes, stopping the one before, reads bytes until a line ends, and
stops a client that has hung up. Nothing but a newline resets the index into the line,
so an unfinished line outlives its connection. Next to the state of the program stand
the histories that say where the bytes of each executed line came from.
-/

namespace SmartDoor

open CString

/-- Where a connection stands: it is `closed` once its client has hung up, and `stopped`
once the sketch has. -/
inductive Status
  | unborn
  | established
  | closed
  | stopped
  deriving DecidableEq, Repr

/-- A line that was executed, the bytes read since the newline before it with the
connections that sent them, and the connection that sent its newline. -/
structure Executed (Conn : Type) where
  text : Bytes
  read : List (Conn × UInt8)
  sender : Conn

/-- The line is what its sender sent. -/
def Executed.Single {Conn : Type} (e : Executed Conn) : Prop :=
  e.text = e.read.map Prod.snd ∧ ∀ b ∈ e.read, b.1 = e.sender

instance Executed.decidableSingle {Conn : Type} [DecidableEq Conn] (e : Executed Conn) :
    Decidable e.Single :=
  inferInstanceAs (Decidable (_ ∧ _))

/-- The line buffer and the client it is filled from, the connections, and the
histories: the bytes read since the last newline, the lines executed, and what was
sent. -/
structure Server (Conn : Type) where
  shell : Shell
  activeClient : Option Conn
  status : Conn → Status
  unread : Conn → Bytes
  read : List (Conn × UInt8)
  executed : List (Executed Conn)
  sent : List (Conn × Output)

/-- What happens to the server. A pass of `loop` calls `process_server`, with the client
that `server.available()` picks and the outcome of the SD calls; between two passes the
rest of the sketch changes the members and the door. Bytes that arrive during a pass can
as well have arrived before it, since the pick is free. -/
inductive Event (Conn : Type)
  | connect (client : Conn)
  | receive (client : Conn) (bytes : Bytes)
  | disconnect (client : Conn)
  | processServer (o : SdOutcome) (pick : Option Conn)
  | rest (store : Store) (board : Board)

variable {Conn : Type} [DecidableEq Conn]

namespace Server

/-- `client.connected()`: a client that has hung up still counts while bytes are unread. -/
def connected (s : Server Conn) (client : Conn) : Bool :=
  match s.status client with
  | .established => true
  | .closed => !(s.unread client).isEmpty
  | _ => false

/-- `server.available()`: the pick, which must be a connected client with unread bytes. -/
def available (s : Server Conn) (pick : Option Conn) : Option Conn :=
  pick.filter fun client => s.connected client && !(s.unread client).isEmpty

/-- `activeClient.stop()` -/
def stop (s : Server Conn) : Server Conn :=
  match s.activeClient with
  | none => s
  | some client => { s with
      activeClient := none
      status := Function.update s.status client .stopped
      unread := Function.update s.unread client [] }

/-- The first statement of `process_server`: an available client replaces the active
one. -/
def turnTo (client : Option Conn) (s : Server Conn) : Server Conn :=
  if client ≠ none ∧ s.activeClient ≠ client then { s.stop with activeClient := client } else s

/-- `process_command(activeClient.read())`, when the byte read is `tmp`. -/
def readCommand (o : SdOutcome) (client : Conn) (tmp : UInt8) (s : Server Conn) :
    Except Fault (Server Conn × Bool) := do
  let (shell, done, out) ← s.shell.processCommand o tmp
  let s := { s with sent := s.sent ++ out.map fun line => (client, line) }
  if done then
    let line := ⟨s.shell.command.toList.take s.shell.cmdIndex, s.read, client⟩
    return ({ s with shell := shell, read := [], executed := s.executed ++ [line] }, true)
  else return ({ s with shell := shell, read := s.read ++ [(client, tmp)] }, false)

/-- The loop of `process_server` over the unread bytes of the active client. -/
def readLoop (o : SdOutcome) (client : Conn) : Bytes → Server Conn → Except Fault (Server Conn)
  | [], s => .ok s
  | tmp :: unread, s => do
    let s := { s with unread := Function.update s.unread client unread }
    let (s, done) ← s.readCommand o client tmp
    if done then return s else readLoop o client unread s

/-- The last statement of `process_server`: a client that has hung up is stopped. -/
def hangUp (s : Server Conn) : Server Conn :=
  match s.activeClient with
  | none => s
  | some client => if s.connected client then s else s.stop

/-- `process_server()` -/
def processServer (o : SdOutcome) (pick : Option Conn) (s : Server Conn) :
    Except Fault (Server Conn) := do
  let s := s.turnTo (s.available pick)
  let s ← match s.activeClient with
    | none => .ok s
    | some client => readLoop o client (s.unread client) s
  return s.hangUp

/-- What an event does. -/
def step (s : Server Conn) : Event Conn → Except Fault (Server Conn)
  | .connect client => .ok (if s.status client = .unborn then
      { s with status := Function.update s.status client .established } else s)
  | .receive client bytes => .ok (if s.status client = .established then
      { s with unread := Function.update s.unread client (s.unread client ++ bytes) } else s)
  | .disconnect client => .ok (if s.status client = .established then
      { s with status := Function.update s.status client .closed } else s)
  | .processServer o pick => s.processServer o pick
  | .rest store board => .ok { s with shell := { s.shell with store := store, board := board } }

section Opaque

variable (run : Shell.Operations)

/-- `process_command(activeClient.read())` with any operations. -/
def readCommandWith (o : SdOutcome) (client : Conn) (tmp : UInt8) (s : Server Conn) :
    Except Fault (Server Conn × Bool) := do
  let (shell, done, out) ← s.shell.processCommandWith run o tmp
  let s := { s with sent := s.sent ++ out.map fun line => (client, line) }
  if done then
    let line := ⟨s.shell.command.toList.take s.shell.cmdIndex, s.read, client⟩
    return ({ s with shell := shell, read := [], executed := s.executed ++ [line] }, true)
  else return ({ s with shell := shell, read := s.read ++ [(client, tmp)] }, false)

/-- The loop of `process_server` with any operations. -/
def readLoopWith (o : SdOutcome) (client : Conn) :
    Bytes → Server Conn → Except Fault (Server Conn)
  | [], s => .ok s
  | tmp :: unread, s => do
    let s := { s with unread := Function.update s.unread client unread }
    let (s, done) ← s.readCommandWith run o client tmp
    if done then return s else readLoopWith o client unread s

/-- `process_server()` with any operations. -/
def processServerWith (o : SdOutcome) (pick : Option Conn) (s : Server Conn) :
    Except Fault (Server Conn) := do
  let s := s.turnTo (s.available pick)
  let s ← match s.activeClient with
    | none => .ok s
    | some client => readLoopWith run o client (s.unread client) s
  return s.hangUp

/-- What an event does when nothing is known of the operations. -/
def stepWith (s : Server Conn) : Event Conn → Except Fault (Server Conn)
  | .processServer o pick => s.processServerWith run o pick
  | e => s.step e

end Opaque

/-- The server before any client. -/
def initial (Conn : Type) (store : Store) : Server Conn where
  shell := ⟨Vector.replicate 256 0, 0, store, .afterSetup⟩
  activeClient := none
  status _ := .unborn
  unread _ := []
  read := []
  executed := []
  sent := []

/-! ## What a pass reads -/

/-- The line buffer holds the bytes read since the last newline. -/
structure Line (s : Server Conn) : Prop where
  index : s.shell.cmdIndex ≤ 256
  text : s.shell.command.toList.take s.shell.cmdIndex = s.read.map Prod.snd

omit [DecidableEq Conn] in
theorem Line.length {s : Server Conn} (h : s.Line) : s.read.length = s.shell.cmdIndex := by
  have hlen := congrArg List.length h.text
  rw [List.length_take, List.length_map, Vector.length_toList] at hlen
  have hindex := h.index
  omega

omit [DecidableEq Conn] in
/-- Nothing but the shell and the bytes read matter for the line. -/
theorem Line.congr {s t : Server Conn} (h : s.Line) (hshell : t.shell.command = s.shell.command)
    (hindex : t.shell.cmdIndex = s.shell.cmdIndex) (hread : t.read = s.read) : t.Line := by
  constructor
  · rw [hindex]
    exact h.index
  · rw [hshell, hindex, hread]
    exact h.text

/-- Bytes as they are read from a client. -/
def bytesOf (client : Conn) (bytes : Bytes) : List (Conn × UInt8) := bytes.map fun c => (client, c)

omit [DecidableEq Conn] in
/-- What one byte does: it joins the line, or it is a newline and the line is executed. -/
theorem readCommandWith_cases {run : Shell.Operations} {o : SdOutcome} {client : Conn}
    {tmp : UInt8} {s t : Server Conn} {done : Bool} (hl : s.Line)
    (h : s.readCommandWith run o client tmp = .ok (t, done)) :
    t.Line ∧ t.activeClient = s.activeClient ∧ t.status = s.status ∧
      (tmp ≠ 10 ∧ done = false ∧ t.read = s.read ++ [(client, tmp)] ∧ t.executed = s.executed ∨
        tmp = 10 ∧ done = true ∧ t.read = [] ∧
          t.executed = s.executed ++ [⟨s.read.map Prod.snd, s.read, client⟩]) := by
  obtain ⟨⟨shell, done', out⟩, hcmd, h⟩ := bind_eq_ok.mp h
  rcases Shell.processCommandWith_cases hcmd with ⟨hne, rfl, hlt, hcommand, hindex⟩ | ⟨heq, rfl, hindex⟩
  · obtain ⟨rfl, rfl⟩ := Prod.mk.inj (Except.ok.inj h)
    refine ⟨⟨?_, ?_⟩, rfl, rfl, Or.inl ⟨hne, rfl, rfl, rfl⟩⟩
    · show shell.cmdIndex ≤ 256
      omega
    · show shell.command.toList.take shell.cmdIndex = (s.read ++ [(client, tmp)]).map Prod.snd
      rw [hcommand, hindex, Vector.toList_set, List.take_add_one, List.take_set_of_le le_rfl,
        hl.text, List.getElem?_set_self (by simpa using hlt), List.map_append]
      rfl
  · obtain ⟨rfl, rfl⟩ := Prod.mk.inj (Except.ok.inj h)
    refine ⟨⟨?_, ?_⟩, rfl, rfl, Or.inr ⟨heq, rfl, rfl, ?_⟩⟩
    · show shell.cmdIndex ≤ 256
      omega
    · show shell.command.toList.take shell.cmdIndex = []
      rw [hindex, List.take_zero]
    · show s.executed ++ [⟨_, s.read, client⟩] = _
      rw [hl.text]

/-- What a pass does to the line: without a newline all bytes join it, and with one the
line up to the first newline is executed. -/
theorem readLoopWith_cases {run : Shell.Operations} {o : SdOutcome} {client : Conn} {bytes : Bytes}
    {s t : Server Conn} (hl : s.Line) (h : readLoopWith run o client bytes s = .ok t) :
    t.Line ∧ t.activeClient = s.activeClient ∧ t.status = s.status ∧
      (10 ∉ bytes ∧ t.read = s.read ++ bytesOf client bytes ∧ t.executed = s.executed ∨
        ∃ head rest, bytes = head ++ 10 :: rest ∧ 10 ∉ head ∧ t.read = [] ∧
          t.executed = s.executed ++ [⟨(s.read ++ bytesOf client head).map Prod.snd,
            s.read ++ bytesOf client head, client⟩]) := by
  induction bytes generalizing s with
  | nil =>
    obtain rfl := Except.ok.inj h
    exact ⟨hl, rfl, rfl, Or.inl ⟨List.not_mem_nil, (List.append_nil _).symm, rfl⟩⟩
  | cons tmp bytes ih =>
    obtain ⟨⟨u, done⟩, hread, h⟩ := bind_eq_ok.mp h
    have hpop : { s with unread := Function.update s.unread client bytes }.Line :=
      ⟨hl.index, hl.text⟩
    obtain ⟨hlu, hactive, hstatus, hcases⟩ := readCommandWith_cases hpop hread
    rcases hcases with ⟨hne, rfl, hru, heu⟩ | ⟨rfl, rfl, hru, heu⟩
    · obtain ⟨hlt, hactive', hstatus', hcases⟩ := ih hlu h
      refine ⟨hlt, hactive'.trans hactive, hstatus'.trans hstatus, ?_⟩
      have hjoin : ∀ l, u.read ++ bytesOf client l = s.read ++ bytesOf client (tmp :: l) := by
        intro l
        rw [hru, List.append_assoc]
        rfl
      rcases hcases with ⟨hmem, hrt, het⟩ | ⟨head, rest, rfl, hmem, hrt, het⟩
      · refine Or.inl ⟨?_, hrt.trans (hjoin bytes), het.trans heu⟩
        rw [List.mem_cons, not_or]
        exact ⟨hne.symm, hmem⟩
      · refine Or.inr ⟨tmp :: head, rest, rfl, ?_, hrt, ?_⟩
        · rw [List.mem_cons, not_or]
          exact ⟨hne.symm, hmem⟩
        · rw [het, heu, hjoin head]
    · obtain rfl := Except.ok.inj h
      refine ⟨hlu, hactive, hstatus, Or.inr ⟨[], bytes, rfl, List.not_mem_nil, hru, ?_⟩⟩
      rw [heu, bytesOf, List.map_nil, List.append_nil]

/-! ## The operations of the sketch -/

omit [DecidableEq Conn] in
/-- A byte that the sketch reads without a fault. -/
theorem readCommandWith_of_ok {o : SdOutcome} {client : Conn} {tmp : UInt8} {s : Server Conn}
    {r : Server Conn × Bool} (h : s.readCommand o client tmp = .ok r) :
    s.readCommandWith Shell.operations o client tmp = .ok r := by
  obtain ⟨shell, hshell, h⟩ := bind_eq_ok.mp h
  rw [readCommandWith, Shell.processCommandWith_of_ok hshell]
  exact h

/-- A loop that the sketch runs without a fault. -/
theorem readLoopWith_of_ok {o : SdOutcome} {client : Conn} {bytes : Bytes} {s t : Server Conn}
    (h : readLoop o client bytes s = .ok t) :
    readLoopWith Shell.operations o client bytes s = .ok t := by
  induction bytes generalizing s with
  | nil => exact h
  | cons tmp bytes ih =>
    obtain ⟨⟨u, done⟩, hread, h⟩ := bind_eq_ok.mp h
    rw [readLoopWith, readCommandWith_of_ok hread]
    cases done with
    | true => exact h
    | false => exact ih h

omit [DecidableEq Conn] in
/-- What one byte does in the sketch. -/
theorem readCommand_cases {o : SdOutcome} {client : Conn} {tmp : UInt8} {s t : Server Conn}
    {done : Bool} (hl : s.Line) (h : s.readCommand o client tmp = .ok (t, done)) :
    t.Line ∧ t.activeClient = s.activeClient ∧ t.status = s.status ∧
      (tmp ≠ 10 ∧ done = false ∧ t.read = s.read ++ [(client, tmp)] ∧ t.executed = s.executed ∨
        tmp = 10 ∧ done = true ∧ t.read = [] ∧
          t.executed = s.executed ++ [⟨s.read.map Prod.snd, s.read, client⟩]) :=
  readCommandWith_cases hl (readCommandWith_of_ok h)

/-- What a pass of the sketch does to the line. -/
theorem readLoop_cases {o : SdOutcome} {client : Conn} {bytes : Bytes} {s t : Server Conn}
    (hl : s.Line) (h : readLoop o client bytes s = .ok t) :
    t.Line ∧ t.activeClient = s.activeClient ∧ t.status = s.status ∧
      (10 ∉ bytes ∧ t.read = s.read ++ bytesOf client bytes ∧ t.executed = s.executed ∨
        ∃ head rest, bytes = head ++ 10 :: rest ∧ 10 ∉ head ∧ t.read = [] ∧
          t.executed = s.executed ++ [⟨(s.read ++ bytesOf client head).map Prod.snd,
            s.read ++ bytesOf client head, client⟩]) :=
  readLoopWith_cases hl (readLoopWith_of_ok h)

/-! ## Whose bytes are in the line -/

/-- The unfinished line is the active client's, or that of a client that was stopped, and
every executed line was its sender's. -/
structure Owned (s : Server Conn) : Prop where
  line : s.Line
  active : ∀ client, s.activeClient = some client → ∀ b ∈ s.read, b.1 = client
  stopped : s.activeClient = none → ∀ b ∈ s.read, s.status b.1 = .stopped
  executed : ∀ e ∈ s.executed, e.Single

omit [DecidableEq Conn] in
theorem owned_initial (store : Store) : (initial Conn store).Owned where
  line := ⟨Nat.zero_le _, rfl⟩
  active _ h := (nomatch h)
  stopped _ _ h := (nomatch h)
  executed _ h := (nomatch h)

theorem Owned.stop {s : Server Conn} (h : s.Owned) : s.stop.Owned := by
  unfold Server.stop
  cases hactive : s.activeClient with
  | none => exact h
  | some client =>
    refine ⟨⟨h.line.index, h.line.text⟩, fun _ hc => (nomatch hc), fun _ b hb => ?_, h.executed⟩
    rw [h.active client hactive b hb]
    exact Function.update_self ..

theorem Owned.hangUp {s : Server Conn} (h : s.Owned) : s.hangUp.Owned := by
  unfold Server.hangUp
  split
  · exact h
  · split
    · exact h
    · exact h.stop

end Server

/-- A pass that turns to another client finds no unfinished line. -/
def Event.Fresh (s : Server Conn) : Event Conn → Prop
  | .processServer _ pick =>
    s.available pick = none ∨ s.activeClient = s.available pick ∨ s.shell.cmdIndex = 0
  | _ => True

instance Event.decidableFresh (s : Server Conn) (e : Event Conn) : Decidable (e.Fresh s) := by
  unfold Event.Fresh
  split <;> infer_instance

namespace Server

omit [DecidableEq Conn] in
/-- An available client was not stopped. -/
theorem status_of_available {s : Server Conn} {pick : Option Conn} {client : Conn}
    (h : s.available pick = some client) : s.status client ≠ .stopped := by
  intro hstopped
  obtain ⟨-, hfilter⟩ := Option.filter_eq_some_iff.mp h
  rw [connected, hstopped] at hfilter
  exact absurd hfilter (by simp)

theorem stop_kept (s : Server Conn) :
    s.stop.shell = s.shell ∧ s.stop.read = s.read ∧ s.stop.executed = s.executed := by
  unfold Server.stop
  cases s.activeClient <;> exact ⟨rfl, rfl, rfl⟩

/-- Turning to another client leaves the line as it is. -/
theorem turnTo_kept (s : Server Conn) (client : Option Conn) :
    (s.turnTo client).shell = s.shell ∧ (s.turnTo client).read = s.read ∧
      (s.turnTo client).executed = s.executed := by
  unfold turnTo
  split
  · exact s.stop_kept
  · exact ⟨rfl, rfl, rfl⟩

theorem hangUp_kept (s : Server Conn) :
    s.hangUp.shell = s.shell ∧ s.hangUp.read = s.read ∧ s.hangUp.executed = s.executed := by
  unfold hangUp
  split
  · exact ⟨rfl, rfl, rfl⟩
  · split
    · exact ⟨rfl, rfl, rfl⟩
    · exact s.stop_kept

/-- Turning to another client when no line is unfinished. -/
theorem Owned.turnTo {s : Server Conn} (h : s.Owned) {client : Option Conn}
    (hfresh : client = none ∨ s.activeClient = client ∨ s.shell.cmdIndex = 0) :
    (s.turnTo client).Owned := by
  unfold Server.turnTo
  split
  · rename_i hturn
    obtain ⟨hshell, hread, hexecuted⟩ := s.stop_kept
    have hempty : s.read = [] := by
      rw [← List.length_eq_zero_iff, h.line.length]
      rcases hfresh with hnone | hsame | hindex
      · exact absurd hnone hturn.1
      · exact absurd hsame hturn.2
      · exact hindex
    have hline := h.line.congr (t := s.stop) (by rw [hshell]) (by rw [hshell]) hread
    refine ⟨⟨hline.index, hline.text⟩, fun _ _ b hb => ?_, fun _ b hb => ?_, fun e he => ?_⟩
    · rw [hread, hempty] at hb
      exact (nomatch hb)
    · rw [hread, hempty] at hb
      exact (nomatch hb)
    · rw [hexecuted] at he
      exact h.executed e he
  · exact h

/-- A pass over the bytes of the active client. -/
theorem Owned.readLoop {s t : Server Conn} (h : s.Owned) {o : SdOutcome} {client : Conn}
    (hactive : s.activeClient = some client) {bytes : Bytes}
    (ht : readLoop o client bytes s = .ok t) : t.Owned := by
  have hown : ∀ l, ∀ b ∈ s.read ++ bytesOf client l, b.1 = client := fun l b hb => by
    rcases List.mem_append.mp hb with hb | hb
    · exact h.active client hactive b hb
    · obtain ⟨c, -, rfl⟩ := List.mem_map.mp hb
      rfl
  obtain ⟨hline, hkept, -, hcases⟩ := readLoop_cases h.line ht
  rw [hactive] at hkept
  refine ⟨hline, fun c hc b hb => ?_, fun hnone => ?_, fun e he => ?_⟩
  · obtain rfl := Option.some.inj (hkept.symm.trans hc)
    rcases hcases with ⟨-, hread, -⟩ | ⟨_, _, -, -, hread, -⟩
    · exact hown bytes b (hread ▸ hb)
    · rw [hread] at hb
      exact (nomatch hb)
  · exact (nomatch hkept.symm.trans hnone)
  · rcases hcases with ⟨-, -, hexecuted⟩ | ⟨head, _, -, -, -, hexecuted⟩
    · exact h.executed e (hexecuted ▸ he)
    · rw [hexecuted] at he
      rcases List.mem_append.mp he with he | he
      · exact h.executed e he
      · obtain rfl := List.mem_singleton.mp he
        exact ⟨rfl, hown head⟩

/-- The three statements of a pass. -/
theorem processServer_eq_ok {s t : Server Conn} {o : SdOutcome} {pick : Option Conn} :
    s.processServer o pick = .ok t ↔ ∃ u,
      ((s.turnTo (s.available pick)).activeClient = none ∧ s.turnTo (s.available pick) = u ∨
        ∃ client, (s.turnTo (s.available pick)).activeClient = some client ∧
          Server.readLoop o client ((s.turnTo (s.available pick)).unread client)
            (s.turnTo (s.available pick)) = .ok u) ∧ u.hangUp = t := by
  unfold Server.processServer
  cases hactive : (s.turnTo (s.available pick)).activeClient with
  | none => simp [hactive, pure, Except.pure]
  | some client => simp [hactive, pure, Except.pure, bind_eq_ok]

theorem Owned.processServer {s t : Server Conn} (h : s.Owned) {o : SdOutcome}
    {pick : Option Conn} (hfresh : (Event.processServer o pick).Fresh s)
    (ht : s.processServer o pick = .ok t) : t.Owned := by
  have hturn := h.turnTo hfresh
  obtain ⟨u, hu, rfl⟩ := processServer_eq_ok.mp ht
  apply Owned.hangUp
  rcases hu with ⟨-, rfl⟩ | ⟨client, hactive, hu⟩
  · exact hturn
  · exact hturn.readLoop hactive hu

theorem Owned.step {s t : Server Conn} (h : s.Owned) {e : Event Conn} (hfresh : e.Fresh s)
    (ht : s.step e = .ok t) : t.Owned := by
  have hstatus : ∀ {client : Conn} {was now : Status}, was ≠ .stopped →
      Server.Owned (if s.status client = was then
        { s with status := Function.update s.status client now } else s) := by
    intro client was now hwas
    split
    · rename_i hclient
      refine ⟨⟨h.line.index, h.line.text⟩, h.active, fun hnone b hb => ?_, h.executed⟩
      have hstopped := h.stopped hnone b hb
      have hne : b.1 ≠ client := by
        rintro rfl
        exact hwas (hclient.symm.trans hstopped)
      show Function.update s.status client now b.1 = .stopped
      rw [Function.update_of_ne hne, hstopped]
    · exact h
  cases e with
  | connect client =>
    obtain rfl := Except.ok.inj ht
    exact hstatus (by decide)
  | receive client bytes =>
    obtain rfl := Except.ok.inj ht
    split
    · exact ⟨⟨h.line.index, h.line.text⟩, h.active, h.stopped, h.executed⟩
    · exact h
  | disconnect client =>
    obtain rfl := Except.ok.inj ht
    exact hstatus (by decide)
  | processServer o pick => exact h.processServer hfresh ht
  | rest store board =>
    obtain rfl := Except.ok.inj ht
    exact ⟨⟨h.line.index, h.line.text⟩, h.active, h.stopped, h.executed⟩

/-- A pass that turns to another client with a line unfinished mixes the line that it
ends. -/
theorem Owned.mixes {s t : Server Conn} (h : s.Owned) {o : SdOutcome} {pick : Option Conn}
    (hstale : ¬ (Event.processServer o pick).Fresh s) (ht : s.processServer o pick = .ok t)
    {e : Executed Conn} (he : t.executed = s.executed ++ [e]) : ¬ e.Single := by
  obtain ⟨hsome, hother, hindex⟩ : s.available pick ≠ none ∧ s.activeClient ≠ s.available pick ∧
      s.shell.cmdIndex ≠ 0 := by
    simpa only [Event.Fresh, not_or] using hstale
  obtain ⟨client, hclient⟩ := Option.ne_none_iff_exists'.mp hsome
  obtain ⟨hshell, hread, hexecuted⟩ := s.stop_kept
  have hturn : s.turnTo (s.available pick) = { s.stop with activeClient := some client } := by
    rw [Server.turnTo, if_pos ⟨hsome, hother⟩, hclient]
  obtain ⟨u, hu, rfl⟩ := processServer_eq_ok.mp ht
  rw [hturn] at hu
  rcases hu with ⟨hnone, -⟩ | ⟨_, hactive, hu⟩
  · exact (nomatch hnone)
  obtain rfl := Option.some.inj hactive
  have hline : { s.stop with activeClient := some client }.Line :=
    h.line.congr (by rw [hshell]) (by rw [hshell]) hread
  rw [u.hangUp_kept.2.2] at he
  rintro ⟨-, hsender⟩
  obtain ⟨-, -, -, hcases⟩ := readLoop_cases hline hu
  rcases hcases with ⟨-, -, hsame⟩ | ⟨head, _, -, -, -, hended⟩
  · rw [hexecuted] at hsame
    rw [he] at hsame
    simp at hsame
  · rw [hexecuted] at hended
    rw [he] at hended
    obtain rfl := List.singleton_inj.mp (List.append_cancel_left hended)
    have hne : s.read ≠ [] := by
      rw [← List.length_pos_iff, h.line.length]
      omega
    obtain ⟨b, rest, hb⟩ := List.exists_cons_of_ne_nil hne
    have hmem : b ∈ s.read := hb ▸ List.mem_cons_self
    have hsent : b.1 = client := hsender b (List.mem_append_left _ (hread ▸ hmem))
    cases hactive : s.activeClient with
    | some owner =>
      rw [← h.active owner hactive b hmem, hsent] at hactive
      exact hother (hactive.trans hclient.symm)
    | none =>
      exact status_of_available hclient (hsent ▸ h.stopped hactive b hmem)

end Server

/-- In every run in which no pass turns to another client while a line is unfinished,
every executed line consists of bytes of the client that sent its newline. When the next
pass of such a run does turn away from an unfinished line, a line that it executes is
mixed. -/
theorem single_origin {store : Store} {events : List (Event Conn)} {s : Server Conn}
    (hs : events.foldlM Server.step (Server.initial Conn store) = .ok s)
    (hfresh : Run.Guarded Server.step Event.Fresh (Server.initial Conn store) events) :
    (∀ e ∈ s.executed, e.Single) ∧
      ∀ o pick t, s.processServer o pick = .ok t → ¬ (Event.processServer o pick).Fresh s →
        ∀ e, t.executed = s.executed ++ [e] → ¬ e.Single := by
  have howned : s.Owned :=
    hfresh.kept (fun h hf ht => Server.Owned.step h hf ht) (Server.owned_initial store) hs
  exact ⟨howned.executed, fun o pick t ht hstale e he => howned.mixes hstale ht he⟩

/-- A client sends a command in two pieces and hangs up, and another asks for help. -/
theorem single_origin_of_two : ∃ s,
    [Event.connect 0, .receive 0 (ascii "5"), .processServer .success (some 0), .connect 1,
      .receive 0 (ascii "_\n"), .receive 1 (ascii "help\n"), .processServer .success none,
      .disconnect 0, .processServer .success (some 1)].foldlM
        Server.step (Server.initial Nat Store.initial) = .ok s ∧
    s.executed.map Executed.text = [ascii "5_", ascii "help"] ∧ ∀ e ∈ s.executed, e.Single := by
  let events : List (Event Nat) := [.connect 0, .receive 0 (ascii "5"),
    .processServer .success (some 0), .connect 1, .receive 0 (ascii "_\n"),
    .receive 1 (ascii "help\n"), .processServer .success none, .disconnect 0,
    .processServer .success (some 1)]
  have hrun : (events.foldlM Server.step (Server.initial Nat Store.initial) >>= fun s =>
      .ok (s.executed.map Executed.text,
        decide (Run.Guarded Server.step Event.Fresh (Server.initial Nat Store.initial) events))) =
      .ok ([ascii "5_", ascii "help"], true) := by
    decide +kernel
  obtain ⟨s, hs, h⟩ := bind_eq_ok.mp hrun
  simp only [Except.ok.injEq, Prod.mk.injEq, decide_eq_true_eq] at h
  exact ⟨s, hs, h.1, (single_origin hs h.2).1⟩

/-- One client sends the beginning of a removal, and what another one then sends
completes it: the member is deleted. -/
theorem single_origin_of_takeover :
    ([Event.connect 0, .receive 0 (ascii "2_0C0029DA90 bob\n"), .processServer .success (some 0),
      .receive 0 (ascii "3_"), .processServer .success (some 0), .connect 1,
      .receive 1 (ascii "bob\n"), .processServer .success (some 1)].foldlM
        Server.step (Server.initial Nat Store.initial) >>= fun s =>
      .ok (s.executed.map fun e => (e.text, decide e.Single), s.sent.getLast?)) =
      .ok ([(ascii "2_0C0029DA90 bob", true), (ascii "3_bob", false)],
        some (1, .reply (.deleting (ascii "bob")))) := by
  decide +kernel

end SmartDoor
