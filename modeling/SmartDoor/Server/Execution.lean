import SmartDoor.Access.Enrolment
import SmartDoor.Card.Bounds
import SmartDoor.Server.Buffer

/-!
# Executed lines

What a line does to the members and the door, and what it answers, is a function of its text;
the reused buffer, the pointers into it and the trimming in place leave no trace in it. A pass
of `process_server` fails for three reasons only: its line does not fit the buffer, the line is
nothing but 255 blanks, or the file that a line of `add_member` leaves cannot be read.
-/

namespace SmartDoor

open CString

/-! ## Operations on texts -/

/-- An operation for the text of its argument. -/
def Operation.exec (o : SdOutcome) (store : Store) (board : Board) :
    Operation Bytes → Except Fault (Store × Board × List Output)
  | .help => return (store, board, [.help])
  | .unknownCommand => return (store, board, [.unknownCommand])
  | .showMember => do
    let (pupa, out) ← SmartDoor.showMember store.pupa
    return ({ store with pupa := pupa }, board, out)
  | .addMember arg => do
    let (store, replies) ← Op.exec o store (.add arg)
    return (store, board, replies.map .reply)
  | .removeMember arg => do
    let (store, replies) ← Op.exec o store (.remove arg)
    return (store, board, replies.map .reply)
  | .setDelaytime arg =>
    let (board, out) := SmartDoor.setDelaytime arg board
    return (store, board, out)
  | .showDelaytime => return (store, board, [.delayTime board.delayTime])

/-- The operations through pointers are those on the texts that they point at. -/
theorem Operation.run_exec (o : SdOutcome) {command : Vector UInt8 256} {store : Store}
    (hs : store.Sound) (board : Board) {op : Operation Nat}
    (hargs : ∀ str ∈ op.argument, Terminated (command.toList.drop str)) :
    (op.run o command store board).map Prod.snd =
      (op.map fun str => content (command.toList.drop str)).exec o store board := by
  cases op with
  | help => rfl
  | unknownCommand => rfl
  | showMember =>
    simp only [Operation.run, Operation.map, Operation.exec]
    cases SmartDoor.showMember store.pupa <;> rfl
  | addMember str =>
    have ht := hargs str rfl
    have hadded : store.card.added o (content (content (command.toList.drop str))) =
        store.card.added o (content (command.toList.drop str)) := by
      rw [content_content]
    simp only [Operation.run, Operation.map, Operation.exec]
    rw [addMember_eq o ht rfl hs.pupa, Op.exec_add o hs.pupa, wanted, content_content]
    split
    · cases readFile store.pupa (store.card.added o (content (command.toList.drop str))).text <;>
        rfl
    · rfl
  | removeMember str =>
    have ht := hargs str rfl
    simp only [Operation.run, Operation.map, Operation.exec]
    rw [removeMember_eq o ht rfl hs.pupa, Op.exec_remove o hs.pupa, wanted, content_content]
    cases store.pupa.lookup (strip (content (command.toList.drop str))) <;> rfl
  | setDelaytime str =>
    simp only [Operation.run, Operation.map, Operation.exec]
    rw [puts, if_pos (hargs str rfl)]
    rfl
  | showDelaytime => rfl

/-- A line of blanks that fills the buffer: the test of its second character reads the byte
behind the buffer. -/
def Full (line : Bytes) : Prop := ((content line).takeWhile isspace).length = 255

instance (line : Bytes) : Decidable (Full line) :=
  inferInstanceAs (Decidable (_ = _))

/-- `process_command` after the newline is its operation on the text of the line. -/
theorem runCommand_exec (o : SdOutcome) {command : Vector UInt8 256}
    (hterm : Terminated command.toList) {store : Store} (hs : store.Sound) (board : Board) :
    (runCommand o command store board).map Prod.snd =
      if Full command.toList then .error .overread
      else (dispatch (strip (content command.toList))).exec o store board := by
  have hlen := hterm.length_content_lt
  rw [Vector.length_toList] at hlen
  have hblanks : ((content command.toList).takeWhile isspace).length ≤
      (content command.toList).length := (List.takeWhile_prefix _).length_le
  by_cases hfull : Full command.toList
  · rw [if_pos hfull]
    have hcount : ((content command.toList).takeWhile isspace).length = 255 := hfull
    have hterm' := terminated_trimAt_ptr (p := 0) hterm
    have hcont := content_trimAt_ptr (p := 0) hterm
    simp only [List.drop_zero, Nat.zero_add] at hterm' hcont
    have hall : (content command.toList).takeWhile isspace = content command.toList :=
      (List.takeWhile_prefix _).eq_of_length (by omega)
    have hempty : strip (content command.toList) = [] := by
      rw [strip, trim, List.dropWhile_eq_nil_iff.mpr (List.takeWhile_eq_self_iff.mp hall)]
      rfl
    rw [hempty] at hcont
    rw [runCommand, trimwhitespace_eq command 0 hterm]
    simp only [ok_bind, List.drop_zero, Nat.zero_add]
    rw [streq_eq hterm' (b := ascii "help" ++ [0]) (by decide), hcont, ok_bind,
      content_append_zero (w := ascii "help") (m := []) (by decide), hcount]
    rfl
  · rw [if_neg hfull]
    have hin : ((content command.toList).takeWhile isspace).length + 1 < 256 := by
      have hne : ((content command.toList).takeWhile isspace).length ≠ 255 := hfull
      omega
    obtain ⟨op, hselect, hop, hargs⟩ := selectCommand_eq 0 hterm
    rw [runCommand_eq 0 o hterm hin, hselect, ok_bind, ← hop]
    exact Operation.run_exec o hs board hargs

/-! ## When an operation succeeds -/

/-- The file that an operation reads, with what `add_member` has appended to it. -/
def Operation.reads (o : SdOutcome) (card : Card) : Operation Bytes → Bytes
  | .addMember arg => if 10 ≤ (content arg).length then (card.added o arg).text else []
  | _ => []

/-- Trimming the id of a slot in place keeps the terminators. -/
theorem Pupa.Terminated.set_trimmed {pupa : Pupa} (hp : pupa.Terminated) {i : Nat}
    (hi : i < MEMBER) :
    Pupa.Terminated (pupa.set i { pupa[i] with memberId := trimAt pupa[i].memberId 0 }) := by
  have hr := hp i hi
  intro j hj
  rw [Vector.getElem_set]
  split
  · exact ⟨terminated_trimAt (p := 0) hr.id, hr.name⟩
  · exact hp j hj

/-- `show_member` reads terminated fields only. -/
theorem showLoop_ok (left i : Nat) {pupa : Pupa} (hp : pupa.Terminated) :
    ∃ r, showLoop left i pupa = .ok r := by
  induction left generalizing i pupa with
  | zero => exact ⟨_, rfl⟩
  | succ left ih =>
    rw [showLoop]
    split
    · rename_i hi
      have hr := hp i hi
      rw [streq_empty, ok_bind]
      split
      · exact ih _ hp
      · have htext := terminated_trimAt_ptr (p := 0) hr.id
        rw [trimwhitespace_eq _ 0 hr.id, ok_bind]
        simp only
        rw [puts, if_pos htext, ok_bind, puts, if_pos hr.name, ok_bind]
        obtain ⟨r, hloop⟩ := ih (i + 1) (hp.set_trimmed hi)
        rw [hloop]
        exact ⟨_, rfl⟩
    · exact ⟨_, rfl⟩

/-- All that `show_member` does to a slot is to trim its id. -/
theorem showLoop_trims {left i : Nat} {pupa pupa' : Pupa} {out : List Output}
    (hp : pupa.Terminated) (h : showLoop left i pupa = .ok (pupa', out)) (j : Nat)
    (hj : j < MEMBER) : pupa'[j] = pupa[j] ∨
      pupa'[j] = { pupa[j] with memberId := trimAt pupa[j].memberId 0 } := by
  induction left generalizing i pupa out with
  | zero =>
    obtain ⟨rfl, -⟩ := Prod.mk.inj (Except.ok.inj h)
    exact Or.inl rfl
  | succ left ih =>
    rw [showLoop] at h
    split at h
    · rename_i hi
      obtain ⟨blank, -, h⟩ := bind_eq_ok.mp h
      split at h
      · exact ih hp h
      · have hr := hp i hi
        rw [trimwhitespace_eq _ 0 hr.id, ok_bind] at h
        obtain ⟨text, -, h⟩ := bind_eq_ok.mp h
        obtain ⟨name, -, h⟩ := bind_eq_ok.mp h
        obtain ⟨⟨pupa'', lines⟩, hloop, h⟩ := bind_eq_ok.mp h
        obtain ⟨rfl, -⟩ := Prod.mk.inj (Except.ok.inj h)
        have hslot := ih (hp.set_trimmed hi) hloop
        by_cases hij : i = j
        · subst hij
          rw [Vector.getElem_set_self, trimAt_trimAt (p := 0) hr.id, or_self] at hslot
          exact Or.inr hslot
        · rw [Vector.getElem_set_ne _ _ hij] at hslot
          exact hslot
    · obtain ⟨rfl, -⟩ := Prod.mk.inj (Except.ok.inj h)
      exact Or.inl rfl

/-- An operation on a sound store fails only when the table does not take the file that it
reads. -/
theorem Operation.exec_ok_iff (o : SdOutcome) {store : Store} (hs : store.Sound) (board : Board)
    (op : Operation Bytes) :
    (∃ r, op.exec o store board = .ok r) ↔
      store.pupa.Takes (parse (op.reads o store.card)) := by
  have hother : ∀ op : Operation Bytes, op.reads o store.card = [] →
      (∃ r, op.exec o store board = .ok r) →
      ((∃ r, op.exec o store board = .ok r) ↔
        store.pupa.Takes (parse (op.reads o store.card))) := fun op hop hok => by
    rw [hop]
    exact iff_of_true hok hs.pupa.takes_empty
  cases op with
  | showMember =>
    obtain ⟨⟨pupa, lines⟩, h⟩ := showLoop_ok MEMBER 0 hs.pupa.terminated
    exact hother _ rfl ⟨_, by rw [exec, SmartDoor.showMember, h]; rfl⟩
  | addMember arg =>
    by_cases hlen : 10 ≤ (content arg).length
    · have hread := hs.pupa.readFile_ok_iff (Card.closed_added hs.file o arg)
      rw [exec, Op.exec_add o hs.pupa, if_pos hlen, reads, if_pos hlen, ← hread]
      cases readFile store.pupa (store.card.added o arg).text with
      | error e =>
        constructor
        · rintro ⟨r, h⟩
          cases h
        · rintro ⟨pupa, h⟩
          cases h
      | ok pupa => exact iff_of_true ⟨_, rfl⟩ ⟨_, rfl⟩
    · refine hother (.addMember arg) (if_neg hlen) ?_
      rw [exec, Op.exec_add o hs.pupa, if_neg hlen]
      exact ⟨_, rfl⟩
  | removeMember arg =>
    refine hother _ rfl ?_
    rw [exec, Op.exec_remove o hs.pupa]
    cases store.pupa.lookup (wanted arg) with
    | none => exact ⟨_, rfl⟩
    | some k => exact ⟨_, rfl⟩
  | _ => exact hother _ rfl ⟨_, rfl⟩

/-! ## Characters -/

/-- The line that has been stored so far. -/
def Shell.line (s : Shell) : Bytes := s.command.toList.take s.cmdIndex

/-- What `process_command` needs for a character: a byte of the buffer, and for a newline a line
that does not fill the buffer with blanks and a file that the table takes. -/
structure Shell.Accepts (o : SdOutcome) (s : Shell) (tmp : UInt8) : Prop where
  room : s.cmdIndex < 256
  full : tmp = 10 → ¬ Full s.line
  takes : tmp = 10 → s.store.pupa.Takes (parse ((Session.answer s.line).reads o s.store.card))

instance (o : SdOutcome) (s : Shell) (tmp : UInt8) : Decidable (s.Accepts o tmp) :=
  decidable_of_iff (s.cmdIndex < 256 ∧ (tmp = 10 → ¬ Full s.line) ∧ (tmp = 10 →
      s.store.pupa.Takes (parse ((Session.answer s.line).reads o s.store.card))))
    ⟨fun h => ⟨h.1, h.2.1, h.2.2⟩, fun h => ⟨h.room, h.full, h.takes⟩⟩

/-- A character is processed without a fault exactly when it has what it needs. -/
theorem Shell.processCommand_ok_iff {o : SdOutcome} {s : Shell} (hs : s.store.Sound)
    {tmp : UInt8} : (∃ r, s.processCommand o tmp = .ok r) ↔ s.Accepts o tmp := by
  by_cases hroom : s.cmdIndex < 256
  · by_cases htmp : tmp = 10
    · subst htmp
      have hset : (s.command.set s.cmdIndex 0).toList =
          s.line ++ 0 :: s.command.toList.drop (s.cmdIndex + 1) := by
        rw [Vector.toList_set, List.set_eq_take_append_cons_drop, if_pos (by simpa using hroom),
          line]
      have hterm : Terminated (s.command.set s.cmdIndex 0).toList := by
        rw [hset]
        exact List.mem_append_right _ List.mem_cons_self
      have hcont : content (s.command.set s.cmdIndex 0).toList = content s.line := by
        rw [hset, content_append_terminator]
      have hfull : Full (s.command.set s.cmdIndex 0).toList ↔ Full s.line := by
        rw [Full, Full, hcont]
      have hexec := (Session.answer s.line).exec_ok_iff o hs s.board
      have hrun := runCommand_exec o hterm hs s.board
      rw [hcont] at hrun
      rw [processCommand, if_neg (not_not.mpr rfl), store_of_lt hroom, ok_bind]
      generalize runCommand o (s.command.set s.cmdIndex 0) s.store s.board = result at hrun ⊢
      have hresult : (∃ r, result >>= (fun r : Vector UInt8 256 × Store × Board × List Output =>
          Except.ok ((⟨r.1, 0, r.2.1, r.2.2.1⟩ : Shell), true, r.2.2.2)) = .ok r) ↔
          ∃ r, result.map Prod.snd = .ok r := by
        cases result with
        | error e =>
          constructor
          · rintro ⟨r, h⟩
            cases h
          · rintro ⟨r, h⟩
            cases h
        | ok r => exact iff_of_true ⟨_, rfl⟩ ⟨_, rfl⟩
      refine hresult.trans ?_
      rw [hrun]
      by_cases hline : Full s.line
      · rw [if_pos (hfull.mpr hline)]
        refine iff_of_false ?_ fun h => h.full rfl hline
        rintro ⟨r, h⟩
        cases h
      · rw [if_neg (mt hfull.mp hline)]
        refine hexec.trans ⟨fun h => ⟨hroom, fun _ => hline, fun _ => h⟩, fun h => h.takes rfl⟩
    · refine iff_of_true ?_ ⟨hroom, fun h => absurd h htmp, fun h => absurd h htmp⟩
      rw [processCommand, if_pos htmp, store_of_lt hroom]
      exact ⟨_, rfl⟩
  · refine iff_of_false ?_ fun h => hroom h.room
    rintro ⟨r, h⟩
    rw [processCommand, store_of_le (by omega), store_of_le (by omega)] at h
    split at h <;> cases h

/-! ## Passes -/

variable {Conn : Type} [DecidableEq Conn]

namespace Server

/-- The line that a pass over these bytes goes on reading, up to its newline. -/
def lineOf (s : Server Conn) (bytes : Bytes) : Bytes :=
  s.read.map Prod.snd ++ bytes.takeWhile (· ≠ 10)

/-- What a pass over these bytes needs: room for the line and its terminator, and at a newline
a line that does not fill the buffer with blanks and a file that the table takes. -/
structure Passes (o : SdOutcome) (s : Server Conn) (bytes : Bytes) : Prop where
  room : (s.lineOf bytes).length + (if 10 ∈ bytes then 1 else 0) ≤ 256
  full : 10 ∈ bytes → ¬ Full (s.lineOf bytes)
  takes : 10 ∈ bytes → s.shell.store.pupa.Takes
    (parse ((Session.answer (s.lineOf bytes)).reads o s.shell.store.card))

/-- What a pass over these bytes does: it runs the operation of the line that it ends. -/
inductive Passed (o : SdOutcome) (client : Conn) (bytes : Bytes) (s t : Server Conn) : Prop
  | unfinished (hmem : 10 ∉ bytes) (store : t.shell.store = s.shell.store)
      (board : t.shell.board = s.shell.board) (sent : t.sent = s.sent)
      (executed : t.executed = s.executed)
  | executed (out : List Output) (e : Executed Conn) (hmem : 10 ∈ bytes)
      (exec : (Session.answer (s.lineOf bytes)).exec o s.shell.store s.shell.board =
        .ok (t.shell.store, t.shell.board, out))
      (sent : t.sent = s.sent ++ out.map fun line => (client, line))
      (executed : t.executed = s.executed ++ [e]) (text : e.text = s.lineOf bytes)
      (sender : e.sender = client)

omit [DecidableEq Conn] in
/-- A newline runs the operation of the line. -/
theorem readCommand_newline (o : SdOutcome) (client : Conn) {s : Server Conn} (hl : s.Line)
    (hs : s.shell.store.Sound) (hroom : s.shell.cmdIndex < 256) :
    (s.readCommand o client 10).map (fun r => (r.1.shell.store, r.1.shell.board, r.1.sent)) =
      if Full (s.read.map Prod.snd) then .error .overread
      else ((Session.answer (s.read.map Prod.snd)).exec o s.shell.store s.shell.board).map fun r =>
        (r.1, r.2.1, s.sent ++ r.2.2.map fun line => (client, line)) := by
  have hset : (s.shell.command.set s.shell.cmdIndex 0).toList =
      s.read.map Prod.snd ++ 0 :: s.shell.command.toList.drop (s.shell.cmdIndex + 1) := by
    rw [Vector.toList_set, List.set_eq_take_append_cons_drop, if_pos (by simpa using hroom),
      hl.text]
  have hterm : Terminated (s.shell.command.set s.shell.cmdIndex 0).toList := by
    rw [hset]
    exact List.mem_append_right _ (List.mem_cons_self ..)
  have hcont : content (s.shell.command.set s.shell.cmdIndex 0).toList =
      content (s.read.map Prod.snd) := by
    rw [hset, content_append_terminator]
  have hfull : Full (s.shell.command.set s.shell.cmdIndex 0).toList ↔
      Full (s.read.map Prod.snd) := by
    rw [Full, Full, hcont]
  have hrun := runCommand_exec o hterm hs s.shell.board
  rw [hcont] at hrun
  rw [readCommand, Shell.processCommand, if_neg (not_not.mpr rfl), store_of_lt hroom, ok_bind,
    Session.answer]
  generalize runCommand o (s.shell.command.set s.shell.cmdIndex 0) s.shell.store s.shell.board =
    result at hrun ⊢
  by_cases hline : Full (s.read.map Prod.snd)
  · rw [if_pos (hfull.mpr hline)] at hrun
    rw [if_pos hline]
    obtain rfl := map_eq_error.mp hrun
    rfl
  · rw [if_neg (mt hfull.mp hline)] at hrun
    rw [if_neg hline, ← hrun]
    cases result <;> rfl

omit [DecidableEq Conn] in
/-- A byte of the line, in a server that has read it. -/
theorem lineOf_cons {s t : Server Conn} {client : Conn} {tmp : UInt8} (hne : tmp ≠ 10)
    (hread : t.read = s.read ++ [(client, tmp)]) (bytes : Bytes) :
    t.lineOf bytes = s.lineOf (tmp :: bytes) := by
  rw [lineOf, lineOf, hread, List.takeWhile_cons_of_pos (by simpa using hne), List.map_append,
    List.append_assoc]
  rfl

omit [DecidableEq Conn] in
theorem lineOf_newline (s : Server Conn) (bytes : Bytes) :
    s.lineOf (10 :: bytes) = s.read.map Prod.snd := by
  rw [lineOf, List.takeWhile_cons_of_neg (by simp), List.append_nil]

omit [DecidableEq Conn] in
/-- What a server needs for a pass depends on its line and on its members. -/
theorem passes_cons {o : SdOutcome} {s t : Server Conn} {client : Conn} {tmp : UInt8}
    (hne : tmp ≠ 10) (hread : t.read = s.read ++ [(client, tmp)])
    (hstore : t.shell.store = s.shell.store) (bytes : Bytes) :
    t.Passes o bytes ↔ s.Passes o (tmp :: bytes) := by
  have hline := lineOf_cons hne hread bytes
  have hmem : (10 : UInt8) ∈ tmp :: bytes ↔ 10 ∈ bytes := by simp [Ne.symm hne]
  constructor
  · intro h
    refine ⟨?_, fun hm => ?_, fun hm => ?_⟩
    · simp only [hmem, ← hline]
      exact h.room
    · rw [← hline]
      exact h.full (hmem.mp hm)
    · rw [← hline, ← hstore]
      exact h.takes (hmem.mp hm)
  · intro h
    refine ⟨?_, fun hm => ?_, fun hm => ?_⟩
    · have hroom := h.room
      simp only [hmem, ← hline] at hroom
      exact hroom
    · rw [hline]
      exact h.full (hmem.mpr hm)
    · rw [hline, hstore]
      exact h.takes (hmem.mpr hm)

omit [DecidableEq Conn] in
/-- A byte is read when the buffer has room for it. -/
theorem index_lt_of_readCommand {o : SdOutcome} {client : Conn} {tmp : UInt8} {s : Server Conn}
    {r : Server Conn × Bool} (h : s.readCommand o client tmp = .ok r) :
    s.shell.cmdIndex < 256 := by
  obtain ⟨_, hcommand, -⟩ := bind_eq_ok.mp h
  by_contra hle
  rw [Shell.processCommand, store_of_le (by omega), store_of_le (by omega)] at hcommand
  split at hcommand <;> cases hcommand

omit [DecidableEq Conn] in
/-- A byte of the line is stored when there is room. -/
theorem readCommand_room (o : SdOutcome) (client : Conn) {tmp : UInt8} {s : Server Conn}
    (hne : tmp ≠ 10) (hroom : s.shell.cmdIndex < 256) :
    ∃ t, s.readCommand o client tmp = .ok (t, false) := by
  rw [readCommand, Shell.processCommand, if_pos hne, store_of_lt hroom]
  exact ⟨_, rfl⟩

omit [DecidableEq Conn] in
/-- What a byte of the line leaves. -/
theorem readCommand_byte {o : SdOutcome} {client : Conn} {tmp : UInt8} {s : Server Conn}
    (hl : s.Line) (hne : tmp ≠ 10) {t : Server Conn} {done : Bool}
    (h : s.readCommand o client tmp = .ok (t, done)) :
    done = false ∧ t.Line ∧ t.read = s.read ++ [(client, tmp)] ∧
      t.shell.store = s.shell.store ∧ t.shell.board = s.shell.board ∧ t.sent = s.sent ∧
      t.executed = s.executed := by
  obtain ⟨hline, -, -, hcases⟩ := readCommand_cases hl h
  rcases hcases with ⟨-, rfl, hread, hexecuted⟩ | ⟨rfl, -⟩
  · obtain ⟨⟨shell, done', out⟩, hcommand, h⟩ := bind_eq_ok.mp h
    rw [Shell.processCommand, if_pos hne] at hcommand
    obtain ⟨command, -, hcommand⟩ := bind_eq_ok.mp hcommand
    obtain ⟨rfl, hanswer⟩ := Prod.mk.inj (Except.ok.inj hcommand)
    obtain ⟨rfl, rfl⟩ := Prod.mk.inj hanswer
    obtain rfl := (Prod.mk.inj (Except.ok.inj h)).1
    exact ⟨rfl, hline, hread, rfl, rfl, List.append_nil _, hexecuted⟩
  · exact absurd rfl hne

/-- The loop of a pass succeeds exactly when the pass has what it needs. -/
theorem readLoop_ok_iff {o : SdOutcome} {client : Conn} {bytes : Bytes} {s : Server Conn}
    (hl : s.Line) (hs : s.shell.store.Sound) :
    (∃ t, readLoop o client bytes s = .ok t) ↔ s.Passes o bytes := by
  induction bytes generalizing s with
  | nil =>
    refine iff_of_true ⟨_, rfl⟩ ⟨?_, fun h => absurd h List.not_mem_nil,
      fun h => absurd h List.not_mem_nil⟩
    have hlen := hl.length
    have hindex := hl.index
    simp only [lineOf, List.takeWhile_nil, List.append_nil, List.length_map, List.not_mem_nil,
      if_false]
    omega
  | cons tmp bytes ih =>
    -- the state in which `process_command` is called
    have hpop : { s with unread := Function.update s.unread client bytes }.Line :=
      hl.congr rfl rfl rfl
    rw [readLoop]
    by_cases hne : tmp = 10
    · subst hne
      have hlen := hl.length
      by_cases hroom : s.shell.cmdIndex < 256
      · have hrun := readCommand_newline o client hpop hs hroom
        have hexec := (Session.answer (s.read.map Prod.snd)).exec_ok_iff o hs s.shell.board
        generalize hresult : readCommand o client 10
          { s with unread := Function.update s.unread client bytes } = result at hrun ⊢
        have hpass : s.Passes o (10 :: bytes) ↔ ¬ Full (s.read.map Prod.snd) ∧
            ∃ r, (Session.answer (s.read.map Prod.snd)).exec o s.shell.store s.shell.board =
              .ok r := by
          rw [hexec]
          constructor
          · intro h
            have hfull := h.full (List.mem_cons_self ..)
            have htakes := h.takes (List.mem_cons_self ..)
            rw [lineOf_newline] at hfull htakes
            exact ⟨hfull, htakes⟩
          · rintro ⟨hfull, htakes⟩
            refine ⟨?_, fun _ => ?_, fun _ => ?_⟩
            · rw [lineOf_newline, if_pos (List.mem_cons_self ..), List.length_map]
              omega
            · rwa [lineOf_newline]
            · rwa [lineOf_newline]
        rw [hpass]
        constructor
        · rintro ⟨t, h⟩
          obtain ⟨⟨u, done⟩, rfl, -⟩ := bind_eq_ok.mp h
          split at hrun
          · cases hrun
          · rename_i hfull
            obtain ⟨r, hr, -⟩ := map_eq_ok.mp hrun.symm
            exact ⟨hfull, r, hr⟩
        · rintro ⟨hfull, r, hr⟩
          have hrun := hrun.trans (if_neg hfull)
          change _ = Except.map _ (Operation.exec o s.shell.store s.shell.board _) at hrun
          rw [hr] at hrun
          obtain ⟨⟨u, done⟩, rfl, -⟩ := map_eq_ok.mp hrun
          obtain ⟨-, -, -, ⟨hne, -⟩ | ⟨-, rfl, -⟩⟩ := readCommand_cases hpop hresult
          · exact absurd rfl hne
          · exact ⟨u, rfl⟩
      · constructor
        · rintro ⟨t, h⟩
          obtain ⟨r, hread, -⟩ := bind_eq_ok.mp h
          exact absurd (index_lt_of_readCommand hread) hroom
        · intro h
          have hle := h.room
          rw [lineOf_newline, if_pos (List.mem_cons_self ..), List.length_map] at hle
          omega
    · by_cases hroom : s.shell.cmdIndex < 256
      · obtain ⟨t, hread⟩ := readCommand_room o client
          (s := { s with unread := Function.update s.unread client bytes }) hne hroom
        obtain ⟨-, hline, hjoined, hstore, -⟩ := readCommand_byte hpop hne hread
        rw [hread, ok_bind, ← passes_cons (s := s) hne hjoined hstore bytes]
        exact ih hline (hstore ▸ hs)
      · constructor
        · rintro ⟨t, h⟩
          obtain ⟨r, hread, -⟩ := bind_eq_ok.mp h
          exact absurd (index_lt_of_readCommand hread) hroom
        · intro h
          have hle := h.room
          have hlen := hl.length
          rw [lineOf, List.takeWhile_cons_of_pos (by simpa using hne), List.length_append,
            List.length_cons, List.length_map] at hle
          omega

/-- What the loop of a pass has done. -/
theorem readLoop_passed {o : SdOutcome} {client : Conn} {bytes : Bytes} {s t : Server Conn}
    (hl : s.Line) (hs : s.shell.store.Sound) (h : readLoop o client bytes s = .ok t) :
    Passed o client bytes s t := by
  induction bytes generalizing s with
  | nil =>
    obtain rfl := Except.ok.inj h
    exact .unfinished List.not_mem_nil rfl rfl rfl rfl
  | cons tmp bytes ih =>
    have hpop : { s with unread := Function.update s.unread client bytes }.Line :=
      hl.congr rfl rfl rfl
    obtain ⟨⟨u, done⟩, hread, h⟩ := bind_eq_ok.mp h
    by_cases hne : tmp = 10
    · subst hne
      have hroom := index_lt_of_readCommand hread
      obtain ⟨-, -, -, ⟨hne, -⟩ | ⟨-, rfl, -, hexecuted⟩⟩ := readCommand_cases hpop hread
      · exact absurd rfl hne
      · obtain rfl := Except.ok.inj h
        have hrun := readCommand_newline o client hpop hs hroom
        rw [hread] at hrun
        split at hrun
        · cases hrun
        · obtain ⟨⟨store, board, out⟩, hexec, hr⟩ := map_eq_ok.mp hrun.symm
          obtain ⟨rfl, hr⟩ := Prod.mk.inj hr
          obtain ⟨rfl, hsent⟩ := Prod.mk.inj hr
          have hline := (lineOf_newline s bytes).symm
          exact .executed out _ (List.mem_cons_self ..) (by rw [← hline]; exact hexec) hsent.symm
            hexecuted hline rfl
    · obtain ⟨rfl, hline, hjoined, hstore, hboard, hsent, hexecuted⟩ : done = false ∧ u.Line ∧
          u.read = s.read ++ [(client, tmp)] ∧ u.shell.store = s.shell.store ∧
          u.shell.board = s.shell.board ∧ u.sent = s.sent ∧ u.executed = s.executed :=
        readCommand_byte hpop hne hread
      have hmem : (10 : UInt8) ∈ tmp :: bytes ↔ 10 ∈ bytes := by simp [Ne.symm hne]
      cases ih hline (hstore ▸ hs) h with
      | unfinished hnone hstore' hboard' hsent' hexecuted' =>
        exact .unfinished (mt hmem.mp hnone) (hstore'.trans hstore) (hboard'.trans hboard)
          (hsent'.trans hsent) (hexecuted'.trans hexecuted)
      | executed out e hsome hexec hsent' hexecuted' htext hsender =>
        rw [lineOf_cons hne hjoined] at hexec htext
        rw [hstore, hboard] at hexec
        rw [hsent] at hsent'
        rw [hexecuted] at hexecuted'
        exact .executed out e (hmem.mpr hsome) hexec hsent' hexecuted' htext hsender

theorem stop_sent (s : Server Conn) : s.stop.sent = s.sent := by
  unfold stop
  cases s.activeClient <;> rfl

theorem turnTo_sent (s : Server Conn) (client : Option Conn) :
    (s.turnTo client).sent = s.sent := by
  unfold turnTo
  split
  · exact s.stop_sent
  · rfl

theorem hangUp_sent (s : Server Conn) : s.hangUp.sent = s.sent := by
  unfold hangUp
  split
  · rfl
  · split
    · rfl
    · exact s.stop_sent

/-- The client that a pass reads from, with its unread bytes. -/
def reading (s : Server Conn) (pick : Option Conn) : Option (Conn × Bytes) :=
  (s.turnTo (s.available pick)).activeClient.map fun client =>
    (client, (s.turnTo (s.available pick)).unread client)

/-- A pass succeeds exactly when it has what it needs for the bytes that it reads. -/
theorem processServer_ok_iff {o : SdOutcome} {pick : Option Conn} {s : Server Conn} (hl : s.Line)
    (hs : s.shell.store.Sound) :
    (∃ t, s.processServer o pick = .ok t) ↔ ∀ r ∈ s.reading pick, s.Passes o r.2 := by
  obtain ⟨hshell, hread, hexecuted⟩ := s.turnTo_kept (s.available pick)
  simp only [processServer_eq_ok, reading]
  generalize s.turnTo (s.available pick) = v at hshell hread ⊢
  have hline : v.Line := hl.congr (by rw [hshell]) (by rw [hshell]) hread
  have hpasses : ∀ bytes, v.Passes o bytes ↔ s.Passes o bytes := fun bytes => by
    have hlineOf : v.lineOf bytes = s.lineOf bytes := by rw [lineOf, lineOf, hread]
    constructor
    · rintro ⟨hroom, hfull, htakes⟩
      rw [hlineOf] at hroom hfull htakes
      rw [hshell] at htakes
      exact ⟨hroom, hfull, htakes⟩
    · rintro ⟨hroom, hfull, htakes⟩
      rw [← hlineOf] at hroom hfull htakes
      rw [← hshell] at htakes
      exact ⟨hroom, hfull, htakes⟩
  cases hactive : v.activeClient with
  | none => exact iff_of_true ⟨_, v, Or.inl ⟨rfl, rfl⟩, rfl⟩ fun r hr => absurd hr (by simp)
  | some client =>
    have hloop : (∃ t, readLoop o client (v.unread client) v = .ok t) ↔
        v.Passes o (v.unread client) := readLoop_ok_iff hline (hshell ▸ hs)
    rw [hpasses] at hloop
    constructor
    · rintro ⟨t, u, hu, -⟩ r hr
      obtain rfl := Option.some.inj hr
      rcases hu with ⟨hnone, -⟩ | ⟨c, hc, hu⟩
      · cases hnone
      · obtain rfl := Option.some.inj hc
        exact hloop.mp ⟨u, hu⟩
    · intro h
      obtain ⟨u, hu⟩ := hloop.mpr (h _ rfl)
      exact ⟨_, u, Or.inr ⟨client, rfl, hu⟩, rfl⟩

/-- What a pass has done. -/
theorem processServer_passed {o : SdOutcome} {pick : Option Conn} {s t : Server Conn} (hl : s.Line)
    (hs : s.shell.store.Sound) (h : s.processServer o pick = .ok t) :
    (s.reading pick = none ∧ t.shell.store = s.shell.store ∧ t.shell.board = s.shell.board ∧
      t.sent = s.sent ∧ t.executed = s.executed) ∨
    ∃ client bytes, s.reading pick = some (client, bytes) ∧ Passed o client bytes s t := by
  obtain ⟨u, hu, rfl⟩ := processServer_eq_ok.mp h
  obtain ⟨hshell, hread, hexecuted⟩ := s.turnTo_kept (s.available pick)
  obtain ⟨hshell', -, hexecuted'⟩ := u.hangUp_kept
  have hsent' := u.hangUp_sent
  have hsent := s.turnTo_sent (s.available pick)
  rw [reading]
  generalize s.turnTo (s.available pick) = v at hshell hread hexecuted hsent hu ⊢
  rw [hshell', hexecuted', hsent']
  rcases hu with ⟨hnone, rfl⟩ | ⟨client, hactive, hu⟩
  · left
    rw [hnone, hshell]
    exact ⟨rfl, rfl, rfl, hsent, hexecuted⟩
  · refine Or.inr ⟨client, v.unread client, by rw [hactive]; rfl, ?_⟩
    have hline : v.Line := hl.congr (by rw [hshell]) (by rw [hshell]) hread
    have hlineOf : v.lineOf (v.unread client) = s.lineOf (v.unread client) := by
      rw [lineOf, lineOf, hread]
    cases readLoop_passed hline (hshell ▸ hs) hu with
    | unfinished hmem hstore hboard hkept hsame =>
      rw [hshell] at hstore hboard
      exact .unfinished hmem (by rw [hshell', hstore]) (by rw [hshell', hboard])
        (hsent'.trans (hkept.trans hsent)) (hexecuted'.trans (hsame.trans hexecuted))
    | executed out e hmem hexec hkept hadded htext hsender =>
      rw [hlineOf] at hexec htext
      rw [hshell] at hexec
      refine .executed out e hmem (by rw [hshell']; exact hexec) ?_ ?_ htext hsender
      · rw [hsent', hkept, hsent]
      · rw [hexecuted', hadded, hexecuted]

end Server

end SmartDoor
