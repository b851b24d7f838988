import SmartDoor.Access.Loop
import SmartDoor.Server.Execution

/-!
# The device with its client

Besides the tasks of the sketch, `process_server` hands the characters of a client to
`process_command` one after the other. A command keeps the member table sound and the
log as it is; of the door it can change the delay of later unlocks only. Which turns stay
inside the arrays is a condition on the state before them.
-/

namespace SmartDoor

open CString

/-! ## Commands -/

/-- The loop of `show_member` trims ids only. -/
theorem showLoop_sound {left i : Nat} {pupa pupa' : Pupa} {out : List Output} (hs : pupa.Sound)
    (h : showLoop left i pupa = .ok (pupa', out)) : pupa'.Sound := by
  induction left generalizing i pupa out with
  | zero =>
    obtain ⟨rfl, -⟩ := Prod.mk.inj (Except.ok.inj h)
    exact hs
  | succ left ih =>
    rw [showLoop] at h
    split at h
    · rename_i hi
      obtain ⟨blank, -, h⟩ := bind_eq_ok.mp h
      split at h
      · exact ih hs h
      · have hr := hs i hi
        rw [trimwhitespace_eq _ 0 hr.id, ok_bind] at h
        obtain ⟨text, -, h⟩ := bind_eq_ok.mp h
        obtain ⟨name, -, h⟩ := bind_eq_ok.mp h
        obtain ⟨⟨pupa'', lines⟩, hloop, h⟩ := bind_eq_ok.mp h
        obtain ⟨rfl, -⟩ := Prod.mk.inj (Except.ok.inj h)
        apply ih _ hloop
        intro j hj
        rw [Vector.getElem_set]
        split
        · exact ⟨⟨terminated_trimAt (p := 0) hr.id, hr.name⟩, hr.tidyId.trimAt 0, hr.tidyName⟩
        · exact hs j hj
    · obtain ⟨rfl, -⟩ := Prod.mk.inj (Except.ok.inj h)
      exact hs

/-- What a command line can do to the members, the log and the door. -/
theorem runCommand_kept {o : SdOutcome} {command command' : Vector UInt8 256}
    {store store' : Store} {board board' : Board} {out : List Output} (hs : store.Sound)
    (h : runCommand o command store board = .ok (command', store', board', out)) :
    store.Kept store' ∧ (board' = board ∨ ∃ str, board' = board.setDelaytime str) := by
  have hsame : store.Kept store := ⟨hs, rfl⟩
  obtain ⟨⟨mem, cmd⟩, -, h⟩ := bind_eq_ok.mp h
  obtain ⟨help, -, h⟩ := bind_eq_ok.mp h
  split at h
  · cases h
    exact ⟨hsame, Or.inl rfl⟩
  obtain ⟨second, -, h⟩ := bind_eq_ok.mp h
  split at h
  · cases h
    exact ⟨hsame, Or.inl rfl⟩
  obtain ⟨first, -, h⟩ := bind_eq_ok.mp h
  split at h
  · -- `1_`
    obtain ⟨⟨pupa, shown⟩, hshow, h⟩ := bind_eq_ok.mp h
    cases h
    obtain ⟨⟨pupa', lines⟩, hloop, h⟩ := bind_eq_ok.mp hshow
    cases h
    exact ⟨⟨⟨showLoop_sound hs.pupa hloop, hs.file⟩, rfl⟩, Or.inl rfl⟩
  · -- `2_`
    obtain ⟨len, -, h⟩ := bind_eq_ok.mp h
    obtain ⟨⟨mem', str⟩, -, h⟩ := bind_eq_ok.mp h
    obtain ⟨⟨t, mem'', replies⟩, hadd, h⟩ := bind_eq_ok.mp h
    cases h
    exact ⟨addMember_kept hs hadd, Or.inl rfl⟩
  · -- `3_`
    obtain ⟨len, -, h⟩ := bind_eq_ok.mp h
    obtain ⟨⟨mem', str⟩, -, h⟩ := bind_eq_ok.mp h
    obtain ⟨⟨t, mem'', replies⟩, hremove, h⟩ := bind_eq_ok.mp h
    cases h
    exact ⟨removeMember_kept hs hremove, Or.inl rfl⟩
  · -- `4_`
    obtain ⟨len, -, h⟩ := bind_eq_ok.mp h
    obtain ⟨⟨mem', str⟩, -, h⟩ := bind_eq_ok.mp h
    obtain ⟨arg, -, h⟩ := bind_eq_ok.mp h
    simp only [setDelaytime] at h
    cases h
    exact ⟨hsame, Or.inr ⟨arg, by split <;> rfl⟩⟩
  · cases h
    exact ⟨hsame, Or.inl rfl⟩
  · cases h
    exact ⟨hsame, Or.inl rfl⟩

/-- What a character of a client can do to the members, the log and the door. -/
theorem Shell.processCommand_kept {o : SdOutcome} {tmp : UInt8} {s t : Shell} {done : Bool}
    {out : List Output} (hs : s.store.Sound) (h : s.processCommand o tmp = .ok (t, done, out)) :
    s.store.Kept t.store ∧ (t.board = s.board ∨ ∃ str, t.board = s.board.setDelaytime str) := by
  rw [processCommand] at h
  split at h
  · obtain ⟨command, -, h⟩ := bind_eq_ok.mp h
    cases h
    exact ⟨⟨hs, rfl⟩, Or.inl rfl⟩
  · obtain ⟨command, -, h⟩ := bind_eq_ok.mp h
    obtain ⟨⟨command', store, board, out'⟩, hrun, h⟩ := bind_eq_ok.mp h
    cases h
    exact runCommand_kept hs hrun

/-! ## The device -/

/-- The sketch, and the command line of its client. -/
structure Device where
  sketch : Sketch
  command : Vector UInt8 256
  cmdIndex : Nat

/-- A task of the sketch, or a character that `process_server` takes from a client. -/
inductive Turn
  | task (a : Task)
  | processCommand (o : SdOutcome) (tmp : UInt8)
  deriving DecidableEq

namespace Device

/-- The device after `setup`, with its delay set. -/
def powerUp (store : Store) (delayTime : UInt32) : Device where
  sketch := { Sketch.powerUp store with board := { Board.afterSetup with delayTime := delayTime } }
  command := Vector.replicate 256 0
  cmdIndex := 0

/-- What `process_command` works on. -/
def shell (d : Device) : Shell := ⟨d.command, d.cmdIndex, d.sketch.store, d.sketch.board⟩

/-- What a device has done since an earlier state. -/
def since (d e : Device) : List Effect := e.sketch.trace.drop d.sketch.trace.length

theorem since_of_trace {d e : Device} {fx : List Effect}
    (h : e.sketch.trace = d.sketch.trace ++ fx) : d.since e = fx := by
  rw [since, h, List.drop_left]

end Device

/-- A turn; what is sent to the client is left out. -/
def Turn.step (world : World) (d : Device) : Turn → Except Fault Device
  | .task a => do return { d with sketch := ← a.step world d.sketch }
  | .processCommand o tmp => do
    let (shell, _, _) ← d.shell.processCommand o tmp
    return ⟨{ d.sketch with store := shell.store, board := shell.board }, shell.command,
      shell.cmdIndex⟩

/-- The store is sound, and the door is locked or its relock is pending. -/
structure Device.Running (d : Device) : Prop where
  store : d.sketch.store.Sound
  board : d.sketch.board.Ready

theorem Device.running_powerUp {store : Store} (h : store.Sound) (delayTime : UInt32) :
    (powerUp store delayTime).Running := by
  obtain ⟨hlow, hstate, hfree⟩ := Board.afterSetup_setup.locked
  exact ⟨h, Or.inl ⟨hlow, hstate, hfree⟩⟩

namespace Turn

variable {world : World} {d e : Device}

/-- A task is a turn of the sketch alone. -/
theorem step_task {a : Task} (h : (Turn.task a).step world d = .ok e) :
    a.step world d.sketch = .ok e.sketch := by
  obtain ⟨t, ht, h⟩ := bind_eq_ok.mp h
  cases h
  exact ht

theorem step_task_ok {a : Task} {t : Sketch} (h : a.step world d.sketch = .ok t) :
    (Turn.task a).step world d = .ok { d with sketch := t } := by
  rw [step, h]
  rfl

/-- A character of a client makes no access decision. -/
theorem step_processCommand {o : SdOutcome} {tmp : UInt8} (hd : d.sketch.store.Sound)
    (h : (Turn.processCommand o tmp).step world d = .ok e) :
    ∃ store board, e.sketch = { d.sketch with store := store, board := board } ∧
      d.sketch.store.Kept store ∧
      (board = d.sketch.board ∨ ∃ str, board = d.sketch.board.setDelaytime str) := by
  obtain ⟨⟨shell, done, out⟩, hcommand, h⟩ := bind_eq_ok.mp h
  cases h
  obtain ⟨hstore, hboard⟩ := Shell.processCommand_kept hd hcommand
  exact ⟨shell.store, shell.board, rfl, hstore, hboard⟩

/-- A character of a client does nothing to the world outside. -/
theorem since_processCommand {o : SdOutcome} {tmp : UInt8} (hd : d.sketch.store.Sound)
    (h : (Turn.processCommand o tmp).step world d = .ok e) : d.since e = [] := by
  obtain ⟨store, board, hsketch, -⟩ := step_processCommand hd h
  apply Device.since_of_trace
  rw [hsketch, List.append_nil]

/-- A task that presents no code leaves the store alone; all it does is to lock the door and
to display lines. -/
theorem step_task_idle (hd : d.Running) {a : Task} (h : a.presents d.sketch = none)
    (hstep : (Turn.task a).step world d = .ok e) : e.sketch.store = d.sketch.store ∧
      ∀ x ∈ d.since e, x = .digitalWrite DOOR false ∨ ∃ lines, x = .display lines := by
  rcases Task.step_cases hd.store.pupa.terminated hd.board (step_task hstep) with
    ⟨-, hidle⟩ | ⟨rfl, -⟩ | ⟨arrived, junk, u, rfl, hpresents, -⟩
  · obtain ⟨code, ci, serial1, hscan⟩ := Task.scanned_scanned d.sketch a
    obtain ⟨fx, htrace, hfx⟩ := hidle.trace
    have hstore := hidle.store
    rw [hscan] at htrace hstore
    rw [Device.since_of_trace htrace]
    exact ⟨hstore, hfx⟩
  · cases h
  · cases h.symm.trans hpresents

end Turn

/-- What a turn needs in order to stay inside the arrays: a NUL in `code` when the button is
pressed, and what `process_command` needs for its character. -/
def Turn.Safe (d : Device) : Turn → Prop
  | .task a => a = .unlockButton true → Terminated d.sketch.code.toList
  | .processCommand o tmp => d.shell.Accepts o tmp

instance Turn.decidableSafe (d : Device) (turn : Turn) : Decidable (turn.Safe d) := by
  unfold Turn.Safe
  split <;> infer_instance

/-- A turn stays inside the arrays exactly when it has what it needs. -/
theorem Turn.step_ok_iff (world : World) {d : Device} (hd : d.Running) (turn : Turn) :
    (∃ e, turn.step world d = .ok e) ↔ turn.Safe d := by
  cases turn with
  | task a =>
    have htask : (∃ t, a.step world d.sketch = .ok t) ↔ _ :=
      Task.step_ok_iff hd.store.pupa.terminated
    rw [Safe, ← htask]
    constructor
    · rintro ⟨e, he⟩
      exact ⟨e.sketch, step_task he⟩
    · rintro ⟨t, ht⟩
      exact ⟨_, step_task_ok ht⟩
  | processCommand o tmp =>
    rw [Safe, ← Shell.processCommand_ok_iff (s := d.shell) hd.store]
    constructor
    · rintro ⟨e, he⟩
      obtain ⟨r, hr, -⟩ := bind_eq_ok.mp he
      exact ⟨r, hr⟩
    · rintro ⟨r, hr⟩
      rw [step, hr]
      exact ⟨_, rfl⟩

/-- Every turn leaves the device running. -/
theorem Device.Running.step {world : World} {d e : Device} (h : d.Running) {turn : Turn}
    (hstep : turn.step world d = .ok e) : e.Running := by
  cases turn with
  | task a =>
    obtain ⟨hpupa, hfile, hready⟩ :=
      Task.step_kept h.store.pupa.terminated h.board (Turn.step_task hstep)
    refine ⟨⟨?_, ?_⟩, hready⟩
    · rcases hpupa with hsame | ⟨user, hsearched⟩
      · exact hsame ▸ h.store.pupa
      · exact hsearched ▸ h.store.pupa.searched user
    · rw [Card.text, hfile]
      exact h.store.file
  | processCommand o tmp =>
    obtain ⟨store, board, hsketch, hkept, hboard⟩ := Turn.step_processCommand h.store hstep
    have hready : board.Ready := by
      rcases hboard with rfl | ⟨str, rfl⟩
      · exact h.board
      · exact h.board.setDelaytime str
    constructor
    · rw [hsketch]
      exact hkept.sound
    · rw [hsketch]
      exact hready

end SmartDoor
