import SmartDoor.Server.Execution
import SmartDoor.System.Machine

/-!
# Memory safety of the sketch

A run of the machine reads and writes inside its arrays exactly when four things hold at its
moves: there is a NUL in `code` when the button is pressed, each line fits the buffer with its
terminator and is not made of 255 blanks, the table takes the file that `add_member` leaves,
and a zeroed table takes the file that is on the card at a power cycle. The machine shows its
texts without drawing them: the display with its font and its buffer is not a part of it.
-/

namespace SmartDoor

open CString

variable {Conn : Type} [DecidableEq Conn]

/-! ## The invariant -/

/-- The device runs, and the line buffer holds what was read of the line. -/
structure Machine.Running (m : Machine Conn) : Prop where
  device : m.device.Running
  line : m.server.Line

omit [DecidableEq Conn] in
/-- A machine that has been started with a sound store. -/
theorem Machine.running_initial (world : World) {store : Store} (h : store.Sound) :
    (Machine.initial Conn world store).Running where
  device := Device.running_powerUp h 2000
  line := (Server.tight_initial store).toLine

/-- What `setup` leaves, from any card: it reads the file over a zeroed table. -/
theorem Sketch.setup_eq (world : World) (card : Card) (trace : List Effect) :
    Sketch.setup world card trace = (readFile Pupa.zero card.text).map fun pupa =>
      let zeroed : Sketch := { Sketch.powerUp ⟨Pupa.zero, { card with sdcard := false }⟩ with
        trace := trace }
      { (zeroed.delay 1000).shown world [ascii "ATTACH", ascii "RFCARD"] with
        store := ⟨pupa, ({ card with sdcard := false } : Card).processed⟩ } := by
  let store : Store := ⟨Pupa.zero, { card with sdcard := false }⟩
  have hread := Store.sdcardProcess_eq (s := store) Pupa.sound_zero
  rw [Sketch.setup]
  simp only [Sketch.ledPrint_reset, ok_bind]
  change (store.sdcardProcess >>= _) = _
  rw [hread]
  change ((readFile Pupa.zero card.text).map _ >>= _) = _
  cases readFile Pupa.zero card.text <;> rfl

/-- After `setup` the device runs. -/
theorem Sketch.running_setup {world : World} {card : Card} {trace : List Effect} {s : Sketch}
    (hc : (parse card.text).Closed) (h : Sketch.setup world card trace = .ok s) :
    s.store.Sound ∧ s.board = .afterSetup := by
  rw [setup_eq] at h
  obtain ⟨pupa, hr, rfl⟩ := map_eq_ok.mp h
  exact ⟨⟨(Pupa.sound_zero.of_readFile hc hr).2.2, hc⟩, rfl⟩

/-- What an event of the server other than a pass changes. -/
theorem Server.step_shell {s t : Server Conn} {e : Event Conn} (h : s.step e = .ok t)
    (hpass : ∀ o pick, e ≠ .processServer o pick) (hrest : ∀ store board, e ≠ .rest store board) :
    t.shell = s.shell ∧ t.sent = s.sent ∧ t.executed = s.executed := by
  cases e with
  | processServer o pick => exact absurd rfl (hpass o pick)
  | rest store board => exact absurd rfl (hrest store board)
  | _ =>
    obtain rfl := Except.ok.inj h
    split
    · exact ⟨rfl, rfl, rfl⟩
    · exact ⟨rfl, rfl, rfl⟩

/-- What an operation does to the members, the log and the door. -/
theorem Operation.exec_kept {o : SdOutcome} {store store' : Store} {board board' : Board}
    {op : Operation Bytes} {out : List Output} (hs : store.Sound)
    (h : op.exec o store board = .ok (store', board', out)) :
    store.Kept store' ∧ (board' = board ∨ ∃ str, board' = board.setDelaytime str) := by
  have hsame : store.Kept store := ⟨hs, rfl⟩
  cases op with
  | showMember =>
    obtain ⟨⟨pupa, shown⟩, hshow, h⟩ := bind_eq_ok.mp h
    cases h
    obtain ⟨⟨pupa', lines⟩, hloop, h⟩ := bind_eq_ok.mp hshow
    cases h
    exact ⟨⟨⟨showLoop_sound hs.pupa hloop, hs.file⟩, rfl⟩, Or.inl rfl⟩
  | addMember arg =>
    obtain ⟨⟨t, replies⟩, hadd, h⟩ := bind_eq_ok.mp h
    cases h
    obtain ⟨⟨t', mem, replies'⟩, hadd, h⟩ := bind_eq_ok.mp hadd
    cases h
    exact ⟨addMember_kept hs hadd, Or.inl rfl⟩
  | removeMember arg =>
    obtain ⟨⟨t, replies⟩, hremove, h⟩ := bind_eq_ok.mp h
    cases h
    obtain ⟨⟨t', mem, replies'⟩, hremove, h⟩ := bind_eq_ok.mp hremove
    cases h
    exact ⟨removeMember_kept hs hremove, Or.inl rfl⟩
  | setDelaytime arg =>
    simp only [exec, SmartDoor.setDelaytime] at h
    refine ⟨?_, Or.inr ⟨arg, ?_⟩⟩
    · split at h <;> (cases h; exact hsame)
    · split at h <;> (cases h; rfl)
  | _ =>
    cases h
    exact ⟨hsame, Or.inl rfl⟩

/-- What a pass does to the members, the log and the door. -/
theorem Server.processServer_kept {o : SdOutcome} {pick : Option Conn} {s t : Server Conn}
    (hl : s.Line) (hs : s.shell.store.Sound) (h : s.processServer o pick = .ok t) :
    s.shell.store.Kept t.shell.store ∧
      (t.shell.board = s.shell.board ∨ ∃ str, t.shell.board = s.shell.board.setDelaytime str) := by
  rcases Server.processServer_passed hl hs h with ⟨-, hstore, hboard, -⟩ |
    ⟨client, bytes, -, hpassed⟩
  · rw [hstore, hboard]
    exact ⟨⟨hs, rfl⟩, Or.inl rfl⟩
  · cases hpassed with
    | unfinished hmem hstore hboard =>
      rw [hstore, hboard]
      exact ⟨⟨hs, rfl⟩, Or.inl rfl⟩
    | executed out e hmem hexec => exact Operation.exec_kept hs hexec

namespace Move

variable {m n : Machine Conn} {mv : Move Conn}

/-- An event of the server on a running machine. -/
theorem step_event (h : m.Running) {e : Event Conn} {s : Server Conn}
    (he : mv.event? = some e) (hs : m.server.step e = .ok s) :
    s.Line ∧ m.device.sketch.store.Kept s.shell.store ∧
      (s.shell.board = m.device.sketch.board ∨
        ∃ str, s.shell.board = m.device.sketch.board.setDelaytime str) := by
  refine ⟨h.line.step hs, ?_⟩
  cases mv with
  | task a => cases he
  | powerCycle world => cases he
  | processServer o pick =>
    obtain rfl := Option.some.inj he
    exact Server.processServer_kept h.line h.device.store hs
  | _ =>
    obtain rfl := Option.some.inj he
    obtain ⟨hshell, -⟩ := Server.step_shell hs (fun _ _ => by simp) (fun _ _ => by simp)
    rw [hshell]
    exact ⟨⟨h.device.store, rfl⟩, Or.inl rfl⟩

end Move

/-- Every move leaves the machine running. -/
theorem Machine.Running.step {m n : Machine Conn} (h : m.Running) {mv : Move Conn}
    (hstep : m.step mv = .ok n) : n.Running := by
  rcases Move.step_cases hstep with ⟨a, t, rfl, ht, rfl⟩ | ⟨e, s, he, hs, rfl⟩ |
    ⟨world, s, rfl, hs, rfl⟩
  · refine ⟨?_, h.line.congr rfl rfl rfl⟩
    have hturn : (Turn.task a).step m.world m.device = .ok { m.device with sketch := t } :=
      Turn.step_task_ok ht
    exact h.device.step hturn
  · obtain ⟨hline, hkept, hboard⟩ := Move.step_event h he hs
    refine ⟨⟨hkept.sound, ?_⟩, hline⟩
    change s.shell.board.Ready
    rcases hboard with hboard | ⟨str, hboard⟩
    · rw [hboard]
      exact h.device.board
    · rw [hboard]
      exact h.device.board.setDelaytime str
  · obtain ⟨hsound, hboard⟩ := Sketch.running_setup h.device.store.file hs
    refine ⟨⟨hsound, ?_⟩, ⟨Nat.zero_le _, rfl⟩⟩
    change s.board.Ready
    rw [hboard]
    exact Or.inl Board.afterSetup_setup.locked

/-! ## What a move needs -/

omit [DecidableEq Conn] in
theorem Server.passes_iff (o : SdOutcome) (s : Server Conn) (bytes : Bytes) :
    s.Passes o bytes ↔ (s.lineOf bytes).length + (if 10 ∈ bytes then 1 else 0) ≤ 256 ∧
      (10 ∈ bytes → ¬ Full (s.lineOf bytes) ∧ s.shell.store.pupa.Takes
        (parse ((Session.answer (s.lineOf bytes)).reads o s.shell.store.card))) :=
  ⟨fun h => ⟨h.room, fun hm => ⟨h.full hm, h.takes hm⟩⟩,
    fun h => ⟨h.1, fun hm => (h.2 hm).1, fun hm => (h.2 hm).2⟩⟩

instance (o : SdOutcome) (s : Server Conn) (bytes : Bytes) : Decidable (s.Passes o bytes) :=
  decidable_of_iff _ (s.passes_iff o bytes).symm

/-- What a move needs in order to stay inside the arrays of the machine. The display is not one of
them, so that no condition is on the texts that are shown. -/
def Move.Safe (m : Machine Conn) : Move Conn → Prop
  | .task a => a = .unlockButton true → Terminated m.device.sketch.code.toList
  | .processServer o pick => ∀ r ∈ m.server.reading pick, m.server.Passes o r.2
  | .powerCycle _ => Pupa.zero.Takes (parse m.device.sketch.store.card.text)
  | _ => True

instance Move.decidableSafe (m : Machine Conn) (mv : Move Conn) : Decidable (mv.Safe m) := by
  unfold Move.Safe
  split <;> infer_instance

/-- A move of a running machine succeeds exactly when it has what it needs. -/
theorem Move.step_ok_iff {m : Machine Conn} (h : m.Running) (mv : Move Conn) :
    (∃ n, m.step mv = .ok n) ↔ mv.Safe m := by
  cases mv with
  | task a =>
    rw [Safe, ← Task.step_ok_iff h.device.store.pupa.terminated]
    constructor
    · rintro ⟨n, hn⟩
      obtain ⟨t, ht, -⟩ := bind_eq_ok.mp hn
      exact ⟨t, ht⟩
    · rintro ⟨t, ht⟩
      exact ⟨m.withSketch t, by rw [Machine.step, Move.step, ht]; rfl⟩
  | processServer o pick =>
    rw [Safe, ← Server.processServer_ok_iff h.line h.device.store]
    constructor
    · rintro ⟨n, hn⟩
      obtain ⟨t, ht, -⟩ := bind_eq_ok.mp hn
      exact ⟨t, ht⟩
    · rintro ⟨t, ht⟩
      exact ⟨m.withServer t, by rw [Machine.step, Move.step, ht]; rfl⟩
  | powerCycle world =>
    rw [Safe, ← Pupa.sound_zero.readFile_ok_iff h.device.store.file]
    simp only [Machine.step, Move.step, Sketch.setup_eq]
    cases readFile Pupa.zero m.device.sketch.store.card.text with
    | error e =>
      constructor
      · rintro ⟨n, hn⟩
        cases hn
      · rintro ⟨pupa, hpupa⟩
        cases hpupa
    | ok pupa => exact iff_of_true ⟨_, rfl⟩ ⟨_, rfl⟩
  | _ => exact iff_of_true ⟨_, rfl⟩ trivial

end SmartDoor
