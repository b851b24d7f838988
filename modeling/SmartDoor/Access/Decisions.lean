import SmartDoor.Access.Lookups

/-!
# What an access decision leaves behind

Looking the code up a second time changes nothing any more: the code and the slots
that the lookup visits are trimmed already. So each way through `check_IDAccess` and
`unlock_door` has one final state, in which the table and the code are trimmed once,
one record is in the log, and the display, the waits and the pin are in the trace.
-/

namespace SmartDoor

open CString

/-! ## Lookups that change nothing more -/

theorem Rfid.trimmed_trimmed {r : Rfid} (h : r.Terminated) : r.trimmed.trimmed = r.trimmed := by
  rw [trimmed, trimmed, trimAt_trimAt (p := 0) h.id, trimAt_trimAt (p := 0) h.name]

theorem Pupa.trimTo_trimTo {pupa : Pupa} (h : pupa.Terminated) (k : Nat) :
    (pupa.trimTo k).trimTo k = pupa.trimTo k := by
  ext1 i hi
  rw [getElem_trimTo, getElem_trimTo]
  split
  · exact Rfid.trimmed_trimmed (h i hi)
  · rfl

theorem Pupa.searched_searched {pupa : Pupa} (h : pupa.Terminated) (user : Bytes) :
    (pupa.searched user).2.searched user = pupa.searched user := by
  rw [searched, lookup_searched h]
  cases hl : pupa.lookup user with
  | none =>
    rw [searched, hl]
    exact Prod.ext rfl (trimTo_trimTo h _)
  | some k =>
    rw [searched, hl]
    exact Prod.ext rfl (trimTo_trimTo h _)

namespace Sketch

/-- The strings are such that a lookup of the code changes nothing. -/
structure Settled (s : Sketch) : Prop extends s.Strings where
  trimmedCode : trimAt s.code 0 = s.code
  trimmedPupa : (s.store.pupa.searched s.presented).2 = s.store.pupa

theorem Strings.congr {s t : Sketch} (h : s.Strings) (hcode : t.code = s.code)
    (hpupa : t.store.pupa = s.store.pupa) : t.Strings :=
  ⟨hcode ▸ h.code, hpupa ▸ h.pupa⟩

theorem Settled.congr {s t : Sketch} (h : s.Settled) (hcode : t.code = s.code)
    (hpupa : t.store.pupa = s.store.pupa) : t.Settled := by
  refine ⟨h.toStrings.congr hcode hpupa, hcode ▸ h.trimmedCode, ?_⟩
  have hpresented : t.presented = s.presented := by rw [presented, presented, hcode]
  rw [hpresented, hpupa]
  exact h.trimmedPupa

theorem Strings.settled {s : Sketch} (h : s.Strings) : s.searched.Settled := by
  have hquiet := h.searched
  refine ⟨hquiet.strings, trimAt_trimAt (p := 0) h.code, ?_⟩
  rw [hquiet.presented]
  exact congrArg Prod.snd (Pupa.searched_searched h.pupa s.presented)

theorem Settled.searched {s : Sketch} (h : s.Settled) : s.searched = s := by
  rw [Sketch.searched, h.trimmedCode, h.trimmedPupa]

theorem Settled.isUserCode {s : Sketch} (h : s.Settled) :
    s.isUserCode = .ok ((s.store.pupa.searched s.presented).1, s) := by
  rw [h.toStrings.isUserCode, h.searched]

/-! ## What the parts leave behind -/

/-- The pin is driven HIGH. -/
def opened (s : Sketch) : Sketch :=
  { s with board := s.board.openDoor }.emit (.digitalWrite DOOR true)

/-- The clock is read and lines are displayed. -/
def shown (world : World) (lines : List Bytes) (s : Sketch) : Sketch :=
  { s with tm := world.rtc s.clock }.emit (.display lines)

/-- A record is appended to the log, if it opens. -/
def logged (world : World) (username id : Bytes) (s : Sketch) : Sketch :=
  { s with store := { s.store with card := { s.store.card with
      activity := if world.logOpens s.clock then
        some (s.store.card.activity.getD [] ++ logRecord s.tm username id)
      else s.store.card.activity } } }

/-- The relock is armed. -/
def armed (s : Sketch) : Sketch := { s with board := s.board.armRelock s.clock }

theorem Strings.shown {s : Sketch} (h : s.Strings) (world : World) (lines : List Bytes) :
    (s.shown world lines).Strings :=
  h.congr rfl rfl

theorem Settled.shown {s : Sketch} (h : s.Settled) (world : World) (lines : List Bytes) :
    (s.shown world lines).Settled :=
  h.congr rfl rfl

theorem Settled.logged {s : Sketch} (h : s.Settled) (world : World) (username id : Bytes) :
    (s.logged world username id).Settled :=
  h.congr rfl rfl

theorem Settled.delay {s : Sketch} (h : s.Settled) (ms : Nat) : (s.delay ms).Settled :=
  h.congr rfl rfl

/-- The texts that `LEDprint` has a screen of its own for. -/
def Screen (text : Bytes) : Prop := text = ascii "reset" ∨ text = ascii "Denied"

instance (text : Bytes) : Decidable (Screen text) :=
  inferInstanceAs (Decidable (text = ascii "reset" ∨ text = ascii "Denied"))

/-- `LEDprint` on any strings looks the code up, except for its own screens. -/
theorem Strings.ledPrint_eq {s : Sketch} (h : s.Strings) (world : World) (text : Str) :
    ∃ lines, s.ledPrint world text =
      .ok ((if Screen (content (s.memory text)) then s else s.searched).shown world lines) := by
  have hliteral : ∀ text : String, (0 : UInt8) ∉ ascii text →
      Terminated (ascii text ++ [0]) ∧ content (ascii text ++ [0]) = ascii text := fun text h0 =>
    ⟨List.mem_append_right _ (List.mem_singleton_self 0), content_append_zero h0⟩
  obtain ⟨hreset, hreset'⟩ := hliteral "reset" (by decide)
  obtain ⟨hdenied, hdenied'⟩ := hliteral "Denied" (by decide)
  have hs : Strings { s with tm := world.rtc s.clock } := h.congr rfl rfl
  have hmemory : Sketch.memory { s with tm := world.rtc s.clock } text = s.memory text := by
    cases text <;> rfl
  have hquiet := hs.searched
  rw [Sketch.ledPrint]
  simp only
  rw [streq_eq (hs.memory text) hreset, ok_bind, hreset', hmemory]
  by_cases hr : content (s.memory text) = ascii "reset"
  · have hscreen : Screen (content (s.memory text)) := Or.inl hr
    rw [decide_eq_true hr, if_pos rfl]
    simp only [if_pos hscreen]
    exact ⟨_, rfl⟩
  · rw [decide_eq_false hr, if_neg (by decide), ← hmemory, streq_eq (hs.memory text) hdenied,
      ok_bind, hdenied', hmemory]
    by_cases hd : content (s.memory text) = ascii "Denied"
    · have hscreen : Screen (content (s.memory text)) := Or.inr hd
      rw [decide_eq_true hd, if_pos rfl]
      simp only [if_pos hscreen]
      exact ⟨_, rfl⟩
    · have hscreen : ¬ Screen (content (s.memory text)) := not_or.mpr ⟨hr, hd⟩
      rw [decide_eq_false hd, if_neg (by decide), hs.isUserCode, ok_bind]
      simp only [if_neg hscreen]
      split
      · rw [streq_eq hquiet.strings.code (b := [0]) (by decide), ok_bind,
          puts_ok (hquiet.strings.memory text), ok_bind]
        exact ⟨_, rfl⟩
      · rw [pure_bind, puts_ok (hquiet.strings.memory text), ok_bind]
        exact ⟨_, rfl⟩

/-- Where a lookup changes nothing, `LEDprint` reads the clock and displays. -/
theorem Settled.ledPrint {s : Sketch} (h : s.Settled) (world : World) (text : Str) :
    ∃ lines, s.ledPrint world text = .ok (s.shown world lines) := by
  obtain ⟨lines, hprint⟩ := h.toStrings.ledPrint_eq world text
  rw [h.searched, ite_self] at hprint
  exact ⟨lines, hprint⟩

theorem Strings.writeLOG_eq {s : Sketch} (h : s.Strings) (world : World) (username id : Str) :
    s.writeLOG world username id =
      .ok (s.logged world (content (s.memory username)) (content (s.memory id))) := by
  rw [Sketch.writeLOG, puts_ok (h.memory id), ok_bind, puts_ok (h.memory username), ok_bind]
  rfl

/-! ## Decisions -/

/-- The sketch after the door was opened, with the texts of the record and the lines that
were displayed. -/
def entered (world : World) (username id : Bytes) (lines : List Bytes) (s : Sketch) : Sketch :=
  ((s.opened.shown world lines).logged world username id).armed

/-- The sketch after access was denied, with the id of the record and the lines that were
displayed. -/
def refused (world : World) (id : Bytes) (denied text reset : List Bytes) (s : Sketch) : Sketch :=
  (((((s.shown world denied).logged world (ascii "Unknown User") id).delay 1000).shown world
    text).delay 5000).shown world reset

@[simp] theorem entered_trace (world : World) (username id : Bytes) (lines : List Bytes)
    (s : Sketch) : (s.entered world username id lines).trace =
      s.trace ++ [.digitalWrite DOOR true, .display lines] :=
  List.append_assoc _ _ _

@[simp] theorem refused_trace (world : World) (id : Bytes) (denied text reset : List Bytes)
    (s : Sketch) : (s.refused world id denied text reset).trace =
      s.trace ++ [.display denied, .delay 1000, .display text, .delay 5000, .display reset] := by
  simp [refused, shown, logged, delay, emit]

/-- The record of an unlocked door carries the time of the unlock. -/
theorem entered_log {world : World} {s : Sketch} (hopens : world.logOpens s.clock = true)
    (username id : Bytes) (lines : List Bytes) :
    (s.entered world username id lines).store.card.log =
      s.store.card.log ++ logRecord (world.rtc s.clock) username id := by
  simp [entered, opened, shown, logged, armed, emit, Card.log, hopens]

/-- The record of a denied card carries the time before the waits. -/
theorem refused_log {world : World} {s : Sketch} (hopens : world.logOpens s.clock = true)
    (id : Bytes) (denied text reset : List Bytes) :
    (s.refused world id denied text reset).store.card.log =
      s.store.card.log ++ logRecord (world.rtc s.clock) (ascii "Unknown User") id := by
  simp [refused, shown, logged, delay, emit, Card.log, hopens]

/-- `unlock_door("card")` after the lookup that has found slot `k`. -/
theorem Settled.unlockDoor_card {s : Sketch} (h : s.Settled) (world : World) {k : Fin MEMBER}
    (hk : s.store.pupa.lookup s.presented = some k) :
    ∃ lines, s.unlockDoor world .card = .ok (s.entered world
      (content (s.store.pupa.get k).memberName.toList) (content s.code.toList) lines) := by
  have hopen : s.opened.Settled := h.congr rfl rfl
  obtain ⟨lines, hprint⟩ := hopen.ledPrint world (.memberName k)
  have hprinted := hopen.shown world lines
  have hname : ∀ {t : Sketch}, t.code = s.code → t.store.pupa = s.store.pupa →
      memberName (t.store.pupa.searched t.presented).1 = .ok (.memberName k) := by
    intro t hcode hpupa
    have hpresented : t.presented = s.presented := by rw [presented, presented, hcode]
    rw [hpresented, hpupa, answer_of_lookup hk, memberName_eq]
  refine ⟨lines, ?_⟩
  rw [Sketch.unlockDoor]
  simp only
  generalize hu : { s with board := s.board.openDoor }.emit (.digitalWrite DOOR true) = u
  obtain rfl : s.opened = u := hu
  rw [hopen.isUserCode, ok_bind]
  simp only
  rw [hname (t := s.opened) rfl rfl, ok_bind, puts_ok (hopen.toStrings.memory _), ok_bind,
    hopen.isUserCode, ok_bind]
  simp only
  rw [hname (t := s.opened) rfl rfl, ok_bind, hprint, ok_bind, hprinted.isUserCode, ok_bind]
  simp only
  rw [hname (t := s.opened.shown world lines) rfl rfl, ok_bind, hprinted.toStrings.writeLOG_eq,
    ok_bind]
  rfl

/-- `unlock_door("button")` looks the code up once, for the display. -/
theorem Strings.unlockDoor_button {s : Sketch} (h : s.Strings) (world : World) :
    ∃ lines, s.unlockDoor world .button = .ok (s.searched.entered world (ascii "Member")
      (ascii "unlock by switch") lines) := by
  have hopen : s.opened.Strings := h.congr rfl rfl
  have hswitch : ¬ Screen (content (s.opened.memory (.literal "UNLOCK by SWITCH"))) := by
    rw [Sketch.memory]
    decide +kernel
  have hmember : content (ascii "Member" ++ [0]) = ascii "Member" := by decide +kernel
  have hid : content (ascii "unlock by switch" ++ [0]) = ascii "unlock by switch" := by
    decide +kernel
  obtain ⟨lines, hprint⟩ := hopen.ledPrint_eq world (.literal "UNLOCK by SWITCH")
  rw [if_neg hswitch] at hprint
  have hprinted := hopen.searched.strings.shown world lines
  refine ⟨lines, ?_⟩
  rw [Sketch.unlockDoor]
  simp only
  generalize hu : { s with board := s.board.openDoor }.emit (.digitalWrite DOOR true) = u
  obtain rfl : s.opened = u := hu
  rw [hprint, ok_bind, hprinted.writeLOG_eq, ok_bind]
  simp only [Sketch.memory, hmember, hid]
  rfl

/-- A known code: the door is opened. -/
theorem Strings.checkIDAccess_accepted {s : Sketch} (h : s.Strings) (world : World)
    {k : Fin MEMBER} (hk : s.store.pupa.lookup s.presented = some k) :
    ∃ lines, s.checkIDAccess world = .ok (s.searched.entered world
      (content (s.searched.store.pupa.get k).memberName.toList) (content s.searched.code.toList)
        lines) := by
  have hquiet := h.searched
  have hk' : s.searched.store.pupa.lookup s.searched.presented = some k := by
    rw [hquiet.lookup, hquiet.presented, hk]
  obtain ⟨lines, hunlock⟩ := h.settled.unlockDoor_card world hk'
  refine ⟨lines, ?_⟩
  rw [Sketch.checkIDAccess, h.isUserCode, ok_bind]
  simp only
  rw [answer_of_lookup hk, if_pos (by omega), hunlock]

/-- An unknown code: access is denied, and the sketch waits twice. -/
theorem Strings.checkIDAccess_denied {s : Sketch} (h : s.Strings) (world : World)
    (hnone : s.store.pupa.lookup s.presented = none) :
    ∃ denied text reset, s.checkIDAccess world = .ok (s.searched.refused world
      (content s.searched.code.toList) denied text reset) := by
  have hanswer : (s.store.pupa.searched s.presented).1 = -1 := by rw [Pupa.searched, hnone]
  have huser : content (ascii "Unknown User" ++ [0]) = ascii "Unknown User" := by decide +kernel
  have hset := h.settled
  obtain ⟨denied, hdenied⟩ := hset.ledPrint world (.literal "Denied")
  have hlogged := ((hset.shown world denied).logged world (ascii "Unknown User")
    (content s.searched.code.toList)).delay 1000
  obtain ⟨text, htext⟩ := hlogged.ledPrint world .code
  obtain ⟨reset, hreset⟩ := ((hlogged.shown world text).delay 5000).ledPrint world
    (.literal "reset")
  refine ⟨denied, text, reset, ?_⟩
  rw [Sketch.checkIDAccess, h.isUserCode, ok_bind]
  simp only
  rw [hanswer, if_neg (by decide), hdenied, ok_bind,
    (hset.shown world denied).toStrings.writeLOG_eq, ok_bind]
  simp only [Sketch.memory, huser]
  rw [show content (s.searched.shown world denied).code.toList = content s.searched.code.toList
    from rfl, htext, ok_bind, hreset]
  rfl

/-- The name that `check_IDAccess` logs. -/
def username (s : Sketch) : Bytes :=
  match s.store.pupa.lookup s.presented with
  | some k => content (s.store.pupa.get k).trimmed.memberName.toList
  | none => ascii "Unknown User"

theorem zero_notMem_username (s : Sketch) : (0 : UInt8) ∉ s.username := by
  rw [username]
  split
  · exact zero_notMem_content _
  · decide

/-- `check_IDAccess` drives DOOR HIGH exactly when the lookup finds a slot, and appends one
record to a log that opens. -/
theorem Strings.checkIDAccess {s : Sketch} (h : s.Strings) (world : World) :
    ∃ t fx, s.checkIDAccess world = .ok t ∧ t.trace = s.trace ++ fx ∧
      (Effect.digitalWrite DOOR true ∈ fx ↔ (s.store.pupa.lookup s.presented).isSome) ∧
      (world.logOpens s.clock = true → t.store.card.log = s.store.card.log ++
        logRecord (world.rtc s.clock) s.username (content (trimAt s.code 0).toList)) := by
  cases hl : s.store.pupa.lookup s.presented with
  | some k =>
    obtain ⟨lines, ht⟩ := h.checkIDAccess_accepted world hl
    have hname : s.username = content (s.searched.store.pupa.get k).memberName.toList := by
      rw [username, hl, Sketch.searched, Pupa.searched, hl]
      simp only [Pupa.get_eq]
      rw [Pupa.getElem_trimTo, if_pos (Nat.lt_succ_self _)]
    refine ⟨_, _, ht, entered_trace .., by simp, fun hopens => ?_⟩
    rw [entered_log (s := s.searched) hopens, hname]
    rfl
  | none =>
    obtain ⟨denied, text, reset, ht⟩ := h.checkIDAccess_denied world hl
    have hname : s.username = ascii "Unknown User" := by rw [username, hl]
    refine ⟨_, _, ht, refused_trace .., by simp, fun hopens => ?_⟩
    rw [refused_log (s := s.searched) hopens, hname]
    rfl

end Sketch

end SmartDoor
