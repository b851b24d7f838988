import SmartDoor.Door.Timing
import SmartDoor.Run.Simulation
import SmartDoor.System.Safety

/-!
# The parts of the device

A run of the machine between two power cycles is at the same time a run of the server, whose
environment are the tasks, a run of turns of the device, and a clocked run of operations on the
door. The events, the turns and the operations are read off the moves, in their order.
-/

namespace SmartDoor

open CString

variable {Conn : Type} [DecidableEq Conn]

/-! ## The device under the server -/

/-- What the commands have done. -/
def Device.withShell (d : Device) (shell : Shell) : Device :=
  ⟨{ d.sketch with store := shell.store, board := shell.board }, shell.command, shell.cmdIndex⟩

theorem Turn.step_command {world : World} {d : Device} {o : SdOutcome} {tmp : UInt8}
    {shell : Shell} {done : Bool} {out : List Output}
    (h : d.shell.processCommand o tmp = .ok (shell, done, out)) :
    (Turn.processCommand o tmp).step world d = .ok (d.withShell shell) := by
  rw [Turn.step, h]
  rfl

/-- The bytes that a pass takes of what is unread: up to the first newline, with it. -/
def taken : Bytes → Bytes
  | [] => []
  | tmp :: bytes => if tmp = 10 then [tmp] else tmp :: taken bytes

/-- The loop of a pass is a run of turns. -/
theorem Server.readLoop_turns {world : World} {o : SdOutcome} {client : Conn} {bytes : Bytes}
    {s t : Server Conn} {d : Device} (hd : d.shell = s.shell)
    (h : readLoop o client bytes s = .ok t) :
    ((taken bytes).map (Turn.processCommand o)).foldlM (Turn.step world) d =
      .ok (d.withShell t.shell) := by
  induction bytes generalizing s d with
  | nil =>
    obtain rfl := Except.ok.inj h
    rw [← hd]
    rfl
  | cons tmp bytes ih =>
    obtain ⟨⟨u, done⟩, hread, h⟩ := bind_eq_ok.mp h
    obtain ⟨⟨shell, done', out⟩, hcommand, hread⟩ := bind_eq_ok.mp hread
    have hcommand : d.shell.processCommand o tmp = .ok (shell, done', out) := by
      rw [hd]
      exact hcommand
    have hturn : (Turn.processCommand o tmp).step world d = _ := Turn.step_command hcommand
    rw [taken]
    rcases Shell.processCommand_cases hcommand with ⟨hne, rfl, -⟩ | ⟨heq, rfl, -⟩
    · obtain ⟨rfl, rfl⟩ := Prod.mk.inj (Except.ok.inj hread)
      rw [if_neg hne, List.map_cons, Run.foldlM_cons_ok]
      exact ⟨_, hturn, ih rfl h⟩
    · obtain ⟨rfl, rfl⟩ := Prod.mk.inj (Except.ok.inj hread)
      obtain rfl := Except.ok.inj h
      rw [if_pos heq, List.map_cons, Run.foldlM_cons_ok]
      exact ⟨_, hturn, rfl⟩

/-! ## What a move is to the parts -/

/-- An operation as the door sees it: `4_` sets the delay. -/
def Operation.acts : Operation Bytes → List Act
  | .setDelaytime str => [.delay str]
  | _ => []

theorem Operation.exec_acts {o : SdOutcome} {store store' : Store} {board board' : Board}
    {op : Operation Bytes} {out : List Output}
    (h : op.exec o store board = .ok (store', board', out)) :
    op.acts.foldl Act.run board = board' := by
  cases op with
  | setDelaytime str =>
    simp only [exec, SmartDoor.setDelaytime] at h
    split at h
    · cases h
      rfl
    · cases h
      rfl
  | showMember =>
    obtain ⟨r, -, h⟩ := bind_eq_ok.mp h
    cases h
    rfl
  | addMember arg =>
    obtain ⟨r, -, h⟩ := bind_eq_ok.mp h
    cases h
    rfl
  | removeMember arg =>
    obtain ⟨r, -, h⟩ := bind_eq_ok.mp h
    cases h
    rfl
  | _ =>
    cases h
    rfl

namespace Move

/-- A move as the server sees it: a task may change the members and the door. -/
def events (n : Machine Conn) (mv : Move Conn) : List (Event Conn) :=
  match mv with
  | .task _ => [.rest n.device.sketch.store n.device.sketch.board]
  | mv => mv.event?.toList

/-- A move as the device sees it. -/
def turns (m : Machine Conn) : Move Conn → List Turn
  | .task a => [.task a]
  | .processServer o pick =>
    match m.server.reading pick with
    | none => []
    | some (_, bytes) => (taken bytes).map (Turn.processCommand o)
  | _ => []

/-- A pass as the door sees it: what the line does that it ends. -/
def passActs (s : Server Conn) (pick : Option Conn) : List Act :=
  match s.reading pick with
  | none => []
  | some (_, bytes) => if 10 ∈ bytes then (Session.answer (s.lineOf bytes)).acts else []

/-- A move as the door sees it. -/
def acts (m : Machine Conn) : Move Conn → List Act
  | .task .update => [.update m.device.sketch.clock]
  | .task (.unlockButton pressed) => [.button pressed m.device.sketch.clock]
  | .task (.serialEvent1 arrived junk) =>
    match (m.device.sketch.arrive arrived).presents junk with
    | none => []
    | some u => match u.store.pupa.lookup u.presented with
      | some _ => [.frame .accepted m.device.sketch.clock]
      | none => [.frame .denied m.device.sketch.clock]
  | .processServer _ pick => passActs m.server pick
  | _ => []

end Move

namespace Move

variable {m n : Machine Conn} {mv : Move Conn}

/-! ## One move -/

/-- A move is its events of the server. -/
theorem step_events (hcut : ¬ mv.Cuts) (h : m.step mv = .ok n) :
    (mv.events n).foldlM Server.step m.server = .ok n.server := by
  rcases step_cases h with ⟨a, t, rfl, -, rfl⟩ | ⟨e, s, he, hs, rfl⟩ | ⟨world, s, rfl, -⟩
  · rfl
  · have hevents : mv.events (m.withServer s) = [e] := by
      cases mv with
      | task a => cases he
      | _ => exact congrArg Option.toList he
    rw [hevents, Run.foldlM_cons_ok]
    exact ⟨s, hs, rfl⟩
  · exact absurd trivial hcut

/-- A pass is a run of turns. -/
theorem pass_turns {o : SdOutcome} {pick : Option Conn} {s : Server Conn}
    (h : m.server.processServer o pick = .ok s) :
    ((processServer o pick).turns m).foldlM (Turn.step m.world) m.device =
      .ok (m.withServer s).device := by
  obtain ⟨u, hu, rfl⟩ := Server.processServer_eq_ok.mp h
  obtain ⟨hshell, -⟩ := m.server.turnTo_kept (m.server.available pick)
  obtain ⟨hshell', -⟩ := u.hangUp_kept
  have hdevice : (m.withServer u.hangUp).device = m.device.withShell u.shell := by
    rw [← hshell']
    rfl
  rw [hdevice, turns, Server.reading]
  rcases hu with ⟨hnone, rfl⟩ | ⟨client, hactive, hu⟩
  · rw [hnone, hshell]
    rfl
  · rw [hactive]
    exact Server.readLoop_turns hshell.symm hu

/-- A move is its turns of the device. -/
theorem step_turns (hcut : ¬ mv.Cuts) (h : m.step mv = .ok n) :
    (mv.turns m).foldlM (Turn.step m.world) m.device = .ok n.device ∧ n.world = m.world := by
  rcases step_cases h with ⟨a, t, rfl, ht, rfl⟩ | ⟨e, s, he, hs, rfl⟩ | ⟨world, s, rfl, -⟩
  · refine ⟨?_, rfl⟩
    rw [turns, Run.foldlM_cons_ok]
    exact ⟨_, Turn.step_task_ok ht, rfl⟩
  · refine ⟨?_, rfl⟩
    cases mv with
    | task a => cases he
    | powerCycle world => cases he
    | processServer o pick =>
      obtain rfl := Option.some.inj he
      exact pass_turns hs
    | _ =>
      obtain rfl := Option.some.inj he
      obtain ⟨hshell, -⟩ := Server.step_shell hs (fun _ _ => by simp) (fun _ _ => by simp)
      have hdevice : (m.withServer s).device = m.device.withShell s.shell := rfl
      rw [hdevice, hshell]
      rfl
  · exact absurd trivial hcut

/-- A pass does to the door what its line asks for. -/
theorem pass_acts {o : SdOutcome} {pick : Option Conn} {s t : Server Conn} (hl : s.Line)
    (hs : s.shell.store.Sound) (h : s.processServer o pick = .ok t) :
    (passActs s pick).foldl Act.run s.shell.board = t.shell.board := by
  rw [passActs]
  rcases Server.processServer_passed hl hs h with ⟨hnone, -, hboard, -⟩ |
    ⟨client, bytes, hsome, hpassed⟩
  · rw [hnone]
    exact hboard.symm
  · rw [hsome]
    cases hpassed with
    | unfinished hmem hstore hboard =>
      simp only [if_neg hmem, List.foldl_nil]
      exact hboard.symm
    | executed out e hmem hexec =>
      simp only [if_pos hmem]
      exact Operation.exec_acts hexec

/-- A task does to the door what its operations do. -/
theorem task_acts (h : m.Running) {a : Task} {t : Sketch}
    (ht : a.step m.world m.device.sketch = .ok t) :
    ((task a).acts m).foldl Act.run m.device.sketch.board = t.board := by
  cases a with
  | update =>
    obtain rfl := Except.ok.inj ht
    rw [Sketch.board_update m.world h.device.board]
    simp only [acts, List.foldl_cons, List.foldl_nil, Act.run]
  | updateTime =>
    obtain ⟨fx, hstep, -⟩ := m.device.sketch.updateTime_eq m.world
    obtain rfl := Except.ok.inj (hstep.symm.trans ht)
    rfl
  | unlockButton pressed =>
    cases pressed with
    | false =>
      obtain rfl := Except.ok.inj ht
      rfl
    | true =>
      have hs : m.device.sketch.Strings :=
        ⟨Sketch.terminated_of_unlockDoor_button ht, h.device.store.pupa.terminated⟩
      obtain ⟨lines, hlines⟩ := hs.unlockDoor_button m.world
      obtain rfl := Except.ok.inj (hlines.symm.trans ht)
      rfl
  | serialEvent1 arrived junk =>
    rcases Task.step_cases h.device.store.pupa.terminated h.device.board ht with
      ⟨hnone, hidle⟩ | ⟨hbutton, -⟩ | ⟨arrived', junk', u, heq, hpresents, hs, hcard⟩
    · have hnone : (m.device.sketch.arrive arrived).presents junk = none := hnone
      rw [Task.step, Sketch.serialEvent1_eq, hnone] at ht
      obtain rfl := Except.ok.inj ht
      obtain ⟨code, ci, serial1, hscan⟩ :=
        (m.device.sketch.arrive arrived).scanned_serialScan 16
      rw [acts, hnone, hscan]
      rfl
    · cases hbutton
    · cases heq
      obtain ⟨⟨code, ci, serial1, hu⟩, -⟩ := Sketch.presents_scanned hpresents
      have hboard : u.board = m.device.sketch.board := by
        rw [hu]
        rfl
      have hclock : u.clock = m.device.sketch.clock := by
        rw [hu]
        rfl
      rw [acts, hpresents]
      rcases hcard with ⟨k, lines, hlookup, rfl⟩ | ⟨hlookup, denied, text, reset, rfl⟩
      · simp only [hlookup, ← hboard, ← hclock]
        rfl
      · simp only [hlookup, ← hboard]
        rfl
  | wait ms =>
    obtain rfl := Except.ok.inj ht
    rfl

/-- A move is its operations on the door. -/
theorem step_acts (h : m.Running) (hcut : ¬ mv.Cuts) (hstep : m.step mv = .ok n) :
    (mv.acts m).foldl Act.run m.device.sketch.board = n.device.sketch.board := by
  rcases step_cases hstep with ⟨a, t, rfl, ht, rfl⟩ | ⟨e, s, he, hs, rfl⟩ | ⟨world, s, rfl, -⟩
  · exact task_acts h ht
  · cases mv with
    | task a => cases he
    | powerCycle world => cases he
    | processServer o pick =>
      obtain rfl := Option.some.inj he
      exact pass_acts h.line h.device.store hs
    | _ =>
      obtain rfl := Option.some.inj he
      obtain ⟨hshell, -⟩ := Server.step_shell hs (fun _ _ => by simp) (fun _ _ => by simp)
      exact (congrArg Shell.board hshell).symm
  · exact absurd trivial hcut

end Move

/-! ## Time -/

/-- The clock never goes back. -/
theorem Task.clock_le {world : World} {s t : Sketch} {a : Task} (hpupa : s.store.pupa.Terminated)
    (hready : s.board.Ready) (h : a.step world s = .ok t) : s.clock ≤ t.clock := by
  cases a with
  | update =>
    obtain rfl := Except.ok.inj h
    rcases Sketch.update_cases world hready with hsame | ⟨u, hlock, -⟩
    · exact (congrArg Sketch.clock hsame).ge
    · exact (congrArg Sketch.clock hlock).ge
  | updateTime =>
    obtain ⟨fx, hstep, -⟩ := s.updateTime_eq world
    obtain rfl := Except.ok.inj (hstep.symm.trans h)
    exact le_rfl
  | unlockButton pressed =>
    cases pressed with
    | false =>
      obtain rfl := Except.ok.inj h
      exact le_rfl
    | true =>
      have hs : s.Strings := ⟨Sketch.terminated_of_unlockDoor_button h, hpupa⟩
      obtain ⟨lines, hlines⟩ := hs.unlockDoor_button world
      obtain rfl := Except.ok.inj (hlines.symm.trans h)
      exact le_rfl
  | serialEvent1 arrived junk =>
    rw [Task.step, Sketch.serialEvent1_eq] at h
    obtain ⟨code, ci, serial1, hscan⟩ := (s.arrive arrived).scanned_serialScan 16
    cases hpresents : (s.arrive arrived).presents junk with
    | none =>
      rw [hpresents, hscan] at h
      obtain rfl := Except.ok.inj h
      exact le_rfl
    | some u =>
      rw [hpresents] at h
      obtain ⟨⟨code', ci', serial1', rfl⟩, hcode⟩ := Sketch.presents_scanned hpresents
      have hs : Sketch.Strings { s.arrive arrived with code := code', ci := ci', serial1 := serial1' } :=
        ⟨hcode, hpupa⟩
      rcases hlookup : s.store.pupa.lookup (strip (content code'.toList)) with - | k
      · obtain ⟨denied, text, reset, ht⟩ := hs.checkIDAccess_denied world hlookup
        obtain rfl := Except.ok.inj (ht.symm.trans h)
        change s.clock ≤ s.clock + 1000 + 5000
        omega
      · obtain ⟨lines, ht⟩ := hs.checkIDAccess_accepted world hlookup
        obtain rfl := Except.ok.inj (ht.symm.trans h)
        exact le_rfl
  | wait ms =>
    obtain rfl := Except.ok.inj h
    exact Nat.le_add_right ..

/-- Between two power cycles the clock never goes back. -/
theorem Move.clock_le {m n : Machine Conn} {mv : Move Conn} (h : m.Running) (hcut : ¬ mv.Cuts)
    (hstep : m.step mv = .ok n) : m.device.sketch.clock ≤ n.device.sketch.clock := by
  rcases Move.step_cases hstep with ⟨a, t, rfl, ht, rfl⟩ | ⟨e, s, -, -, rfl⟩ |
    ⟨world, s, rfl, -⟩
  · exact Task.clock_le h.device.store.pupa.terminated h.device.board ht
  · exact le_rfl
  · exact absurd trivial hcut

/-- The operations of a move are made at its time, and there is at most one. -/
theorem Move.time_acts (m : Machine Conn) (mv : Move Conn) :
    (mv.acts m).length ≤ 1 ∧
      ∀ time ∈ (mv.acts m).filterMap Act.time?, time = m.device.sketch.clock := by
  have hnone : ([] : List Act).length ≤ 1 ∧
      ∀ time ∈ ([] : List Act).filterMap Act.time?, time = m.device.sketch.clock :=
    ⟨Nat.zero_le _, fun time htime => absurd htime List.not_mem_nil⟩
  have hone : ∀ act : Act, (∀ time ∈ act.time?, time = m.device.sketch.clock) →
      [act].length ≤ 1 ∧
        ∀ time ∈ [act].filterMap Act.time?, time = m.device.sketch.clock := by
    intro act hact
    refine ⟨le_rfl, fun time htime => ?_⟩
    obtain ⟨act', hmem, hat⟩ := List.mem_filterMap.mp htime
    obtain rfl := List.mem_singleton.mp hmem
    exact hact time hat
  have hnow : ∀ time ∈ some m.device.sketch.clock, time = m.device.sketch.clock :=
    fun time htime => (Option.mem_some_iff.mp htime).symm
  have hnever : ∀ time ∈ (none : Option Nat), time = m.device.sketch.clock :=
    fun time htime => absurd htime (Option.not_mem_none time)
  cases mv with
  | task a =>
    cases a with
    | update => exact hone _ hnow
    | unlockButton pressed =>
      cases pressed with
      | false => exact hone _ hnever
      | true => exact hone _ hnow
    | serialEvent1 arrived junk =>
      rw [acts]
      split
      · exact hnone
      · split
        · exact hone _ hnow
        · exact hone _ hnever
    | _ => exact hnone
  | processServer o pick =>
    rw [acts, passActs]
    split
    · exact hnone
    · split
      · generalize Session.answer _ = op
        cases op with
        | setDelaytime str => exact hone _ hnever
        | _ => exact hnone
      · exact hnone
  | _ => exact hnone

/-! ## Whole runs -/

/-- The run of the machine from `m` to `n`, as its parts see it. -/
structure Machine.Projects (m : Machine Conn) (moves : List (Move Conn)) (n : Machine Conn) :
    Prop where
  server : (Run.mirror Machine.step (fun _ mv n => mv.events n) m moves).foldlM Server.step
    m.server = .ok n.server
  device : (Run.mirror Machine.step (fun m mv _ => mv.turns m) m moves).foldlM
    (Turn.step m.world) m.device = .ok n.device
  door : (Run.mirror Machine.step (fun m mv _ => mv.acts m) m moves).foldl Act.run
    m.device.sketch.board = n.device.sketch.board
  clocked : Clocked (Run.mirror Machine.step (fun m mv _ => mv.acts m) m moves)

/-- The operations of a run are made in the order of time, none before its start. -/
theorem Machine.clocked_acts {m n : Machine Conn} (hm : m.Running) {moves : List (Move Conn)}
    (hcut : ∀ mv ∈ moves, ¬ mv.Cuts) (h : moves.foldlM Machine.step m = .ok n) :
    Clocked (Run.mirror Machine.step (fun m mv _ => mv.acts m) m moves) ∧
      ∀ time ∈ (Run.mirror Machine.step (fun m mv _ => mv.acts m) m moves).filterMap Act.time?,
        m.device.sketch.clock ≤ time := by
  induction moves generalizing m with
  | nil => exact ⟨List.Pairwise.nil, fun time htime => absurd htime List.not_mem_nil⟩
  | cons mv moves ih =>
    obtain ⟨u, hu, h⟩ := Run.foldlM_cons_ok.mp h
    obtain ⟨hsorted, hlater⟩ := ih (hm.step hu) (fun b hb => hcut b (List.mem_cons_of_mem _ hb)) h
    obtain ⟨hone, htimes⟩ := mv.time_acts m
    have hle := Move.clock_le hm (hcut mv (List.mem_cons_self ..)) hu
    rw [Run.mirror_cons hu, Clocked, List.filterMap_append]
    refine ⟨List.pairwise_append.mpr ⟨?_, hsorted, fun x hx y hy => ?_⟩, fun time htime => ?_⟩
    · have hlen := (List.length_filterMap_le Act.time? (mv.acts m)).trans hone
      generalize (mv.acts m).filterMap Act.time? = times at hlen
      rcases times with _ | ⟨x, _ | ⟨y, times⟩⟩
      · exact List.Pairwise.nil
      · exact List.pairwise_singleton _ x
      · simp at hlen
    · rw [htimes x hx]
      exact hle.trans (hlater y hy)
    · rcases List.mem_append.mp htime with htime | htime
      · exact (htimes time htime).ge
      · exact hle.trans (hlater time htime)

/-- Without a power cycle, a run of the machine is a run of the server with the tasks as its
environment, a run of turns of the device, and a clocked run of operations on the door. -/
theorem machine_projects {m n : Machine Conn} (hm : m.Running) {moves : List (Move Conn)}
    (hcut : ∀ mv ∈ moves, ¬ mv.Cuts) (h : moves.foldlM Machine.step m = .ok n) :
    m.Projects moves n := by
  refine ⟨?_, ?_, ?_, (Machine.clocked_acts hm hcut h).1⟩
  · exact Run.mirrored Machine.server (fun _ => True) (fun _ _ _ => trivial)
      (fun hmem _ hu => Move.step_events (hcut _ hmem) hu) trivial h
  · refine Run.mirrored Machine.device (fun u => u.world = m.world)
      (fun hmem hworld hu => ((Move.step_turns (hcut _ hmem) hu).2).trans hworld)
      (fun hmem hworld hu => ?_) rfl h
    rw [← hworld]
    exact (Move.step_turns (hcut _ hmem) hu).1
  · have hdoor : (Run.mirror Machine.step (fun m mv _ => mv.acts m) m moves).foldlM
        (fun b a => Except.ok (ε := Fault) (Act.run b a)) m.device.sketch.board =
          .ok n.device.sketch.board :=
      Run.mirrored (fun u : Machine Conn => u.device.sketch.board) Machine.Running
        (fun _ hu hstep => hu.step hstep)
        (fun hmem hu hstep => by rw [Run.foldlM_ok, Move.step_acts hu (hcut _ hmem) hstep]) hm h
    rw [Run.foldlM_ok] at hdoor
    exact Except.ok.inj hdoor

/-- A client sets the delay to a minute, and the button is pressed. -/
theorem machine_projects_of_delay :
    let start := Machine.initial Nat .still Store.initial
    let moves := [Move.connect 7, .receive 7 (ascii "4_60000\n"), .processServer .success (some 7),
      .task (.serialEvent1 (0x02 :: (ascii "0C0029DA906F" ++ [0x03])) (.replicate 12 0)),
      .task (.unlockButton true), .task (.wait 59999), .task .update]
    ∃ m, moves.foldlM Machine.step start = .ok m ∧ start.Projects moves m := by
  intro start moves
  have hrun : (moves.foldlM Machine.step start).map (fun _ => ()) = .ok () := by decide +kernel
  obtain ⟨m, hm, -⟩ := map_eq_ok.mp hrun
  have hcut : ∀ mv ∈ moves, ¬ mv.Cuts := by
    simp [moves, Move.Cuts]
  exact ⟨m, hm, machine_projects (Machine.running_initial .still Store.sound_initial) hcut hm⟩

end SmartDoor
