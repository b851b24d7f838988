import SmartDoor.Access.Sketch

/-!
# Command lines

`process_command` collects the characters of a client in `command`; at a newline it
trims the line, finds the command by its first two characters and runs it on the
rest of the line, in the same buffer. A read or a write outside the 256 bytes is a
fault.
-/

namespace SmartDoor

open CString

/-- `PREFIX_LEN` -/
abbrev prefixLen : Nat := 2

/-- What the commands send to the client. -/
inductive Output
  | help
  | unknownCommand
  | memberHead
  | member (i : Nat) (id name : Bytes)
  | memberDone
  | reply (r : Reply)
  | delayChanged
  | delayRefused
  | delayTime (ms : UInt32)
  deriving DecidableEq, Repr

/-- The text that a reply quotes. -/
def Reply.quoted : Reply → Bytes
  | .adding text => text
  | .deleting text => text
  | _ => []

/-- The lines of an output. -/
def Output.lines : Output → List Bytes
  | .help => [
      "===================================",
      "======= How to use command ========",
      "===================================",
      "Show member   : 1_",
      "Add  member   : 2_<rfid_code> <name>",
      "Remove member : 3_<name> or 3_<rfid_code>",
      "Set delayTime : 4_<time>",
      "Show delayTime : 5_",
      "=========================================="].map ascii
  | .unknownCommand => ["Unknown Command!!!", "command help --> show how to command "].map ascii
  | .memberHead => [ascii "Member : "]
  | .member i id name => [ascii "No." ++ decimal i ++ ascii ": " ++ id ++ ascii " " ++ name]
  | .memberDone => ["=======================", "Show member Done!!"].map ascii
  | .reply r => [ascii r.words.1 ++ r.quoted ++ ascii r.words.2]
  | .delayChanged => [ascii "Change DelayTime Done!!"]
  | .delayRefused => [ascii "DelayTime must be more than 0 !!"]
  | .delayTime ms => [ascii "Delay Time : " ++ decimal ms.toNat]

/-- The loop of `show_member` from slot `i` on: the ids are trimmed in place. -/
def showLoop : Nat → Nat → Pupa → Except Fault (Pupa × List Output)
  | 0, _, pupa => .ok (pupa, [])
  | left + 1, i, pupa =>
    if h : i < MEMBER then do
      let blank ← streq pupa[i].memberId.toList [0]
      if blank then showLoop left (i + 1) pupa
      else do
        let (id, p) ← trimwhitespace pupa[i].memberId 0
        let text ← puts (id.toList.drop p)
        let name ← puts pupa[i].memberName.toList
        let (pupa, lines) ← showLoop left (i + 1) (pupa.set i { pupa[i] with memberId := id })
        return (pupa, .member i text name :: lines)
    else .ok (pupa, [])

/-- `show_member()` -/
def showMember (pupa : Pupa) : Except Fault (Pupa × List Output) := do
  let (pupa, lines) ← showLoop MEMBER 0 pupa
  return (pupa, .memberHead :: (lines ++ [.memberDone]))

/-- `set_delaytime(str)`, with what it sends. -/
def setDelaytime (str : Bytes) (board : Board) : Board × List Output :=
  let board := board.setDelaytime str
  if str2long str > 0 then (board, [.delayChanged, .delayTime board.delayTime])
  else (board, [.delayRefused])

/-- `strcut(str, head, tail)` -/
def strcut {n : Nat} (mem : Vector UInt8 n) (str head tail : Nat) :
    Except Fault (Vector UInt8 n × Nat) := do
  let mem ← store mem (str + tail) 0
  return (mem, str + head)

/-- A byte read at an index. -/
def load {n : Nat} (mem : Vector UInt8 n) (i : Nat) : Except Fault UInt8 :=
  if h : i < n then .ok mem[i] else .error .overread

/-- `process_command` after the newline, down to its return: the line is trimmed and
its command is run. -/
def runCommand (o : SdOutcome) (command : Vector UInt8 256) (store : Store) (board : Board) :
    Except Fault (Vector UInt8 256 × Store × Board × List Output) := do
  let (command, cmd) ← trimwhitespace command 0
  if ← streq (command.toList.drop cmd) (ascii "help" ++ [0]) then
    return (command, store, board, [.help])
  else if (← load command (cmd + 1)) ≠ 95 then
    return (command, store, board, [.unknownCommand])
  else
    match ← load command cmd with
    | 49 => do
      let (pupa, out) ← showMember store.pupa
      return (command, { store with pupa := pupa }, board, out)
    | 50 => do
      let len ← strlen (command.toList.drop cmd)
      let (command, str) ← strcut command cmd prefixLen len
      let (store, command, replies) ← addMember o command str store
      return (command, store, board, replies.map .reply)
    | 51 => do
      let len ← strlen (command.toList.drop cmd)
      let (command, str) ← strcut command cmd prefixLen len
      let (store, command, replies) ← removeMember o command str store
      return (command, store, board, replies.map .reply)
    | 52 => do
      let len ← strlen (command.toList.drop cmd)
      let (command, str) ← strcut command cmd prefixLen len
      let arg ← puts (command.toList.drop str)
      let (board, out) := setDelaytime arg board
      return (command, store, board, out)
    | 53 => return (command, store, board, [.delayTime board.delayTime])
    | _ => return (command, store, board, [.unknownCommand])

/-- The variables of the command line, and what the commands change. -/
structure Shell where
  command : Vector UInt8 256
  cmdIndex : Nat
  store : Store
  board : Board

/-- `process_command(tmp)`: the answer is its return value, and what was sent. -/
def Shell.processCommand (o : SdOutcome) (tmp : UInt8) (s : Shell) :
    Except Fault (Shell × Bool × List Output) :=
  if tmp ≠ 10 then do
    let command ← CString.store s.command s.cmdIndex tmp
    return ({ s with command := command, cmdIndex := s.cmdIndex + 1 }, false, [])
  else do
    let command ← CString.store s.command s.cmdIndex 0
    let (command, store, board, out) ← runCommand o command s.store s.board
    return (⟨command, 0, store, board⟩, true, out)

/-! ## Opaque operations -/

namespace Shell

/-- Operations of which no more is known than that they end: what each of them leaves of the
buffer, the members and the door, and what it sends. -/
abbrev Operations := SdOutcome → Vector UInt8 256 → Store → Board →
  Vector UInt8 256 × Store × Board × List Output

/-- `process_command(tmp)` with any operations behind the newline. -/
def processCommandWith (run : Operations) (o : SdOutcome) (tmp : UInt8) (s : Shell) :
    Except Fault (Shell × Bool × List Output) :=
  if tmp ≠ 10 then do
    let command ← CString.store s.command s.cmdIndex tmp
    return ({ s with command := command, cmdIndex := s.cmdIndex + 1 }, false, [])
  else do
    let command ← CString.store s.command s.cmdIndex 0
    let (command, store, board, out) := run o command s.store s.board
    return (⟨command, 0, store, board⟩, true, out)

/-- The operations of the sketch, as far as they stay inside their arrays. -/
def operations : Operations := fun o command store board =>
  match runCommand o command store board with
  | .ok r => r
  | .error _ => (command, store, board, [])

/-- A character that the sketch processes without a fault. -/
theorem processCommandWith_of_ok {o : SdOutcome} {tmp : UInt8} {s : Shell}
    {r : Shell × Bool × List Output} (h : s.processCommand o tmp = .ok r) :
    s.processCommandWith operations o tmp = .ok r := by
  rw [processCommand] at h
  rw [processCommandWith]
  split at h
  · rename_i hne
    rw [if_pos hne]
    exact h
  · rename_i hnewline
    obtain ⟨command, hstore, h⟩ := bind_eq_ok.mp h
    obtain ⟨left, hrun, h⟩ := bind_eq_ok.mp h
    rw [if_neg hnewline, hstore, ok_bind, operations, hrun]
    exact h

/-- What one character does to the line: it is stored, or it ends the line and the
index starts anew. -/
theorem processCommandWith_cases {run : Operations} {o : SdOutcome} {tmp : UInt8} {s t : Shell}
    {done : Bool} {out : List Output} (h : s.processCommandWith run o tmp = .ok (t, done, out)) :
    (tmp ≠ 10 ∧ done = false ∧ ∃ hlt : s.cmdIndex < 256,
        t.command = s.command.set s.cmdIndex tmp hlt ∧ t.cmdIndex = s.cmdIndex + 1) ∨
      (tmp = 10 ∧ done = true ∧ t.cmdIndex = 0) := by
  rw [processCommandWith] at h
  split at h
  · rename_i hne
    obtain ⟨command, hstore, h⟩ := bind_eq_ok.mp h
    obtain ⟨rfl, hanswer⟩ := Prod.mk.inj (Except.ok.inj h)
    obtain ⟨rfl, -⟩ := Prod.mk.inj hanswer
    refine Or.inl ⟨hne, rfl, ?_⟩
    by_cases hlt : s.cmdIndex < 256
    · rw [store_of_lt hlt] at hstore
      exact ⟨hlt, (Except.ok.inj hstore).symm, rfl⟩
    · rw [store_of_le (by omega)] at hstore
      cases hstore
  · rename_i hnewline
    obtain ⟨command, -, h⟩ := bind_eq_ok.mp h
    obtain ⟨rfl, hanswer⟩ := Prod.mk.inj (Except.ok.inj h)
    obtain ⟨rfl, -⟩ := Prod.mk.inj hanswer
    exact Or.inr ⟨not_not.mp hnewline, rfl, rfl⟩

/-- A character is stored, or a newline ends a line and its command is executed. -/
theorem processCommand_cases {o : SdOutcome} {tmp : UInt8} {s t : Shell} {done : Bool}
    {out : List Output} (h : s.processCommand o tmp = .ok (t, done, out)) :
    (tmp ≠ 10 ∧ done = false ∧ ∃ hlt : s.cmdIndex < 256,
        t.command = s.command.set s.cmdIndex tmp hlt ∧ t.cmdIndex = s.cmdIndex + 1) ∨
      (tmp = 10 ∧ done = true ∧ t.cmdIndex = 0) :=
  processCommandWith_cases (processCommandWith_of_ok h)

end Shell

end SmartDoor
