import SmartDoor.Access.Device

/-!
# The log and the access decisions

A card is decided by the ten characters in front of the CR that `process_code` stores,
and the record quotes them after several lookups have trimmed the code and the table. The
record of each decision is said here in terms of the state before it, and the log of a
whole run is the records of its decisions, in order, as long as each turn stays inside its
arrays and each card finds its ten characters. A turn that leaves its arrays counts as not
audited.
-/

namespace SmartDoor

open CString

/-! ## Decisions and their records -/

/-- An access decision, with the texts that its record quotes. -/
inductive Decision
  | accepted (id name : Bytes)
  | denied (id : Bytes)
  | button
  deriving DecidableEq, Repr

namespace Decision

/-- The decision unlocks the door. -/
def opens : Decision → Bool
  | .denied _ => false
  | _ => true

/-- The id field of a card's record. -/
def id : Decision → Bytes
  | .accepted id _ => id
  | .denied id => id
  | .button => []

/-- The record of a decision at the time `tm`. -/
def record (tm : Tm) : Decision → Bytes
  | .accepted id name => Sketch.logRecord tm name id
  | .denied id => Sketch.logRecord tm (ascii "Unknown User") id
  | .button => Sketch.logRecord tm (ascii "Member") (ascii "unlock by switch")

end Decision

/-- The decision about the card in `code`: its ten characters are looked up, and the name
is the one in the slot that is found, trimmed. -/
def Sketch.verdict (s : Sketch) : Decision :=
  let id := s.code.toList.take 10
  match s.store.pupa.lookup id with
  | some k => .accepted id (content (s.store.pupa.get k).trimmed.memberName.toList)
  | none => .denied id

/-- The access decision that a turn makes. -/
def Turn.decision (d : Device) : Turn → Option Decision
  | .task (.unlockButton true) => some .button
  | .task (.serialEvent1 arrived junk) =>
    ((d.sketch.arrive arrived).presents junk).map Sketch.verdict
  | _ => none

/-- The log on the card. -/
def Device.log (d : Device) : Bytes := d.sketch.store.card.log

/-- What a turn of an audited device does: it stays inside the arrays; without a decision the
log stays as it is and the door is not opened; a decision appends its record and nothing else, in
the step in which the door is opened, if it is. -/
def Turn.Audited (world : World) (d : Device) (turn : Turn) : Prop :=
  match turn.decision d with
  | none => ∃ e, turn.step world d = .ok e ∧
      e.log = d.log ∧ Effect.digitalWrite DOOR true ∉ d.since e
  | some decision => ∃ e, turn.step world d = .ok e ∧
      e.log = d.log ++ decision.record (world.rtc d.sketch.clock) ∧
      (Effect.digitalWrite DOOR true ∈ d.since e ↔ decision.opens = true) ∧
      (13 : UInt8) ∉ decision.id

/-- The records of the decisions of a run, in order. -/
def records (world : World) : Device → List Turn → List Bytes
  | _, [] => []
  | d, turn :: turns =>
    (turn.decision d).toList.map (Decision.record (world.rtc d.sketch.clock)) ++
      match turn.step world d with
      | .ok e => records world e turns
      | .error _ => []

/-- When each turn is audited, the log of the run is made of the records. -/
theorem log_of_audited {world : World} {d e : Device} {turns : List Turn}
    (h : Run.Guarded (Turn.step world) (Turn.Audited world) d turns)
    (he : turns.foldlM (Turn.step world) d = .ok e) :
    e.log = d.log ++ (records world d turns).flatten := by
  induction turns generalizing d with
  | nil =>
    obtain rfl := Except.ok.inj he
    exact (List.append_nil _).symm
  | cons turn turns ih =>
    obtain ⟨u, hu, he⟩ := Run.foldlM_cons_ok.mp he
    obtain ⟨haudited, hrest⟩ := h
    have hlog := ih (hrest u hu) he
    rw [Turn.Audited] at haudited
    rw [records, hu, List.flatten_append, hlog, ← List.append_assoc]
    congr 1
    cases hdecision : turn.decision d with
    | none =>
      rw [hdecision] at haudited
      obtain ⟨v, hv, hlog, -⟩ := haudited
      obtain rfl := Except.ok.inj (hu.symm.trans hv)
      rw [hlog]
      exact (List.append_nil _).symm
    | some decision =>
      rw [hdecision] at haudited
      obtain ⟨v, hv, hrecord, -⟩ := haudited
      obtain rfl := Except.ok.inj (hu.symm.trans hv)
      rw [hrecord]
      exact congrArg _ (List.append_nil _).symm

/-! ## Codes of hex characters -/

/-- The first ten bytes of `code` are hex characters or were never written. -/
def HexCode (code : Vector UInt8 12) : Prop :=
  ∀ i (h : i < 12), i < 10 → code[i] = 0 ∨ isHex code[i] = true

theorem HexCode.set {code : Vector UInt8 12} (h : HexCode code) {k : Nat} (hk : k < 12)
    {c : UInt8} (hc : isHex c = true) : HexCode (code.set k c) := by
  intro i hi hten
  rw [Vector.getElem_set]
  split
  · exact Or.inr hc
  · exact h i hi hten

theorem HexCode.endCode {code : Vector UInt8 12} (h : HexCode code) : HexCode (endCode code) := by
  intro i hi hten
  rw [SmartDoor.endCode, Vector.getElem_set, Vector.getElem_set, if_neg (by omega),
    if_neg (by omega)]
  exact h i hi hten

theorem HexCode.trimAt {code : Vector UInt8 12} (h : HexCode code) : HexCode (trimAt code 0) := by
  rw [SmartDoor.trimAt]
  split
  · exact h
  · intro i hi hten
    rw [Vector.getElem_setIfInBounds]
    split
    · exact Or.inl rfl
    · exact h i hi hten

theorem HexCode.take {code : Vector UInt8 12} (h : HexCode code) :
    ∀ c ∈ code.toList.take 10, c = 0 ∨ isHex c = true := by
  intro c hc
  obtain ⟨i, hi, rfl⟩ := List.getElem_of_mem hc
  rw [List.length_take, Vector.length_toList] at hi
  rw [List.getElem_take, Vector.getElem_toList]
  exact h i (by omega) (by omega)

/-- All payload is made of hex characters: what is in `code`, and what is still to be read. -/
structure Sketch.Hex (s : Sketch) : Prop where
  code : HexCode s.code
  buffer : ∀ c ∈ s.serial1.buffer, isPayload c → isHex c

/-- The payload that arrives in a turn is made of hex characters. -/
def Turn.Hex : Turn → Prop
  | .task (.serialEvent1 arrived _) => ∀ c ∈ arrived, isPayload c → isHex c
  | _ => True

instance : DecidablePred Turn.Hex := fun turn =>
  match turn with
  | .task (.serialEvent1 arrived _) =>
    inferInstanceAs (Decidable (∀ c ∈ arrived, isPayload c → isHex c))
  | .task .update => isTrue trivial
  | .task .updateTime => isTrue trivial
  | .task (.unlockButton _) => isTrue trivial
  | .task (.wait _) => isTrue trivial
  | .processCommand _ _ => isTrue trivial

namespace Sketch

theorem Hex.arrive {s : Sketch} (h : s.Hex) {arrived : Bytes}
    (harrived : ∀ c ∈ arrived, isPayload c → isHex c) : (s.arrive arrived).Hex := by
  refine ⟨h.code, fun c hc => ?_⟩
  rcases List.mem_append.mp hc with hc | hc
  · exact h.buffer c hc
  · exact harrived c hc

/-- A byte of a hex frame. -/
theorem Hex.taken {s : Sketch} (h : s.Hex) {c : UInt8} {buffer : Bytes}
    (hbuf : s.serial1.buffer = c :: buffer) : (s.taken c buffer).Hex := by
  have hrest : ∀ d ∈ buffer, isPayload d → isHex d := fun d hd =>
    h.buffer d (hbuf ▸ List.mem_cons_of_mem _ hd)
  rw [Sketch.taken]
  split
  · exact ⟨h.code, hrest⟩
  split
  · rename_i hroom
    have hc : isHex c := h.buffer c (hbuf ▸ List.mem_cons_self) hroom.1
    exact ⟨h.code.set hroom.2 hc, hrest⟩
  · exact ⟨h.code, hrest⟩

/-- The loop of `serialEvent1` over hex frames. -/
theorem Hex.serialScan {s : Sketch} (h : s.Hex) (left : Nat) : (s.serialScan left).1.Hex := by
  refine serialScan_invariant (I := Hex) (fun hbuf _ hs => hs.taken hbuf) ?_ h rfl
  intro s buffer hbuf hs
  exact ⟨hs.code, fun d hd => hs.buffer d (hbuf ▸ List.mem_cons_of_mem _ hd)⟩

theorem Hex.presents {s u : Sketch} {junk : Junk} (h : s.Hex) (hu : s.presents junk = some u) :
    u.Hex := by
  have hscan := h.serialScan 16
  rw [presents_eq hu]
  exact ⟨hscan.code.endCode, hscan.buffer⟩

end Sketch

/-- Hex payload stays hex payload over every turn. -/
theorem Sketch.Hex.step {world : World} {d e : Device} (h : d.sketch.Hex) (hd : d.Running)
    {turn : Turn} (hturn : turn.Hex) (hstep : turn.step world d = .ok e) : e.sketch.Hex := by
  cases turn with
  | processCommand o tmp =>
    obtain ⟨store, board, hsketch, -⟩ := Turn.step_processCommand hd.store hstep
    rw [hsketch]
    exact ⟨h.code, h.buffer⟩
  | task a =>
    rcases Task.step_cases hd.store.pupa.terminated hd.board (Turn.step_task hstep) with
      ⟨-, hidle⟩ | ⟨-, -, lines, ht⟩ | ⟨arrived, junk, u, rfl, hpresents, -, hcard⟩
    · have hscan : (a.scanned d.sketch).Hex := by
        cases a with
        | serialEvent1 arrived junk => exact (h.arrive hturn).serialScan 16
        | _ => exact h
      exact ⟨hidle.code ▸ hscan.code, hidle.serial1 ▸ hscan.buffer⟩
    · rw [ht]
      exact ⟨h.code.trimAt, h.buffer⟩
    · have hu := (h.arrive hturn).presents hpresents
      rcases hcard with ⟨k, lines, -, ht⟩ | ⟨-, denied, text, reset, ht⟩
      · rw [ht]
        exact ⟨hu.code.trimAt, hu.buffer⟩
      · rw [ht]
        exact ⟨hu.code.trimAt, hu.buffer⟩

/-! ## What a verdict writes -/

namespace Sketch

/-- The record of a verdict quotes ten characters. -/
theorem record_verdict (s : Sketch) (tm : Tm) :
    ∃ name, s.verdict.record tm = logRecord tm name (s.code.toList.take 10) := by
  rw [verdict]
  split
  · exact ⟨_, rfl⟩
  · exact ⟨_, rfl⟩

theorem id_verdict (s : Sketch) : s.verdict.id = s.code.toList.take 10 := by
  rw [verdict]
  split <;> rfl

theorem opens_verdict {s : Sketch} (h : s.presented = s.code.toList.take 10) :
    s.verdict.opens = (s.store.pupa.lookup s.presented).isSome := by
  rw [verdict, h]
  cases s.store.pupa.lookup (s.code.toList.take 10) with
  | none => rfl
  | some k => rfl

/-- When the ten characters are the code that is looked up, the verdict names the slot that
the lookup finds. -/
theorem record_verdict_of_presented {s : Sketch} (h : s.presented = s.code.toList.take 10)
    (tm : Tm) : s.verdict.record tm = logRecord tm s.username (s.code.toList.take 10) := by
  rw [verdict, username, h]
  cases s.store.pupa.lookup (s.code.toList.take 10) with
  | none => rfl
  | some k => rfl

/-- The code that a card presents, with its end. -/
theorem presents_code {s u : Sketch} {junk : Junk} (h : s.presents junk = some u) :
    u.code.toList = u.code.toList.take 10 ++ [13, 0] := by
  have hcode := toList_endCode (s.serialScan 16).1.code
  have hten : (endCode (s.serialScan 16).1.code).toList.take 10 =
      (s.serialScan 16).1.code.toList.take 10 := by
    rw [hcode, List.take_left' (by simp)]
  rw [presents_eq h]
  simp only
  rw [hten, hcode]

end Sketch

/-- Ten letters in front of a CR are what the trimmed buffer holds. -/
theorem content_trimAt_code {code : Vector UInt8 12} {w : Bytes}
    (hcode : code.toList = w ++ [13, 0]) (hw : ∀ c ∈ w, isWord c = true) (hne : w ≠ []) :
    content (trimAt code 0).toList = w := by
  have hterm : Terminated code.toList := by
    rw [hcode]
    simp [Terminated]
  have hcont : content code.toList = w ++ [13] := by
    have h0 : (0 : UInt8) ∉ w ++ [13] := by simpa using zero_notMem_words hw
    rw [hcode, ← content_append_zero (m := []) h0, List.append_assoc]
    rfl
  have hall : ¬ (w ++ [13]).all isspace = true := by
    obtain ⟨c, hc⟩ := List.exists_mem_of_ne_nil w hne
    intro hall
    have hspace := List.all_eq_true.mp hall c (List.mem_append_left _ hc)
    rw [isspace_of_isWord (hw c hc)] at hspace
    cases hspace
  have htrim := content_trimAt (p := 0) hterm
  rw [List.drop_zero, List.drop_zero, hcont, if_neg hall,
    List.rdropWhile_concat_pos _ _ _ (by decide)] at htrim
  rw [htrim]
  apply List.rdropWhile_eq_self_iff.mpr
  intro hlast
  rw [isspace_of_isWord (hw _ (List.getLast_mem hlast))]
  decide

/-- What a record quotes stands also in every record that is equal to it. -/
theorem mem_of_logRecord_eq {tm : Tm} {name id name' id' : Bytes}
    (h : Sketch.logRecord tm name id = Sketch.logRecord tm name' id') {c : UInt8} (hc : c ∈ id) :
    c ∈ id' ++ (ascii "   " ++ (name' ++ [13, 10])) := by
  simp only [Sketch.logRecord, List.append_assoc, List.append_cancel_left_eq] at h
  rw [← h]
  exact List.mem_append_left _ hc

/-! ## Audited turns -/

/-- What a turn needs of `code` for its record: a NUL when the button is pressed, and ten
characters when a card is presented. -/
def Turn.complete (d : Device) : Turn → Bool
  | .task (.unlockButton true) => Terminated d.sketch.code.toList
  | .task (.serialEvent1 arrived junk) =>
    ((d.sketch.arrive arrived).presents junk).all fun u => (0 : UInt8) ∉ u.code.toList.take 10
  | _ => true

namespace Turn

variable {world : World} {d e : Device}

/-- A task that presents no code leaves the log alone and the door closed. -/
theorem task_quiet (hd : d.Running) {a : Task} (h : a.presents d.sketch = none)
    (hstep : (Turn.task a).step world d = .ok e) :
    e.log = d.log ∧ Effect.digitalWrite DOOR true ∉ d.since e := by
  obtain ⟨hstore, hfx⟩ := step_task_idle hd h hstep
  refine ⟨congrArg (fun s : Store => s.card.log) hstore, fun hmem => ?_⟩
  rcases hfx _ hmem with he | ⟨lines, he⟩ <;> cases he

/-- A press of the button is audited exactly when it finds a NUL in `code`. -/
theorem audited_button (hopens : ∀ time, world.logOpens time = true) (hd : d.Running) :
    (Turn.task (.unlockButton true)).Audited world d ↔ Terminated d.sketch.code.toList := by
  constructor
  · rintro ⟨e, he, -⟩
    exact Sketch.terminated_of_unlockDoor_button (step_task he)
  · intro h
    have hs : d.sketch.Strings := ⟨h, hd.store.pupa.terminated⟩
    obtain ⟨lines, ht⟩ := hs.unlockDoor_button world
    have htask : (Task.unlockButton true).step world d.sketch = .ok _ := ht
    have hlog := Sketch.entered_log (hopens d.sketch.searched.clock) (ascii "Member")
      (ascii "unlock by switch") lines
    have htrace := Sketch.entered_trace world (ascii "Member") (ascii "unlock by switch") lines
      d.sketch.searched
    refine ⟨_, step_task_ok htask, hlog, ?_, List.not_mem_nil⟩
    rw [Device.since_of_trace htrace]
    exact iff_of_true List.mem_cons_self rfl

/-- A card is audited exactly when ten characters stand in `code`. -/
theorem audited_card (hopens : ∀ time, world.logOpens time = true) (hd : d.Running)
    {arrived : Bytes} {junk : Junk} {u : Sketch}
    (hu : (d.sketch.arrive arrived).presents junk = some u) (hhex : u.Hex) :
    (Turn.task (.serialEvent1 arrived junk)).Audited world d ↔
      (0 : UInt8) ∉ u.code.toList.take 10 := by
  obtain ⟨⟨code, ci, serial1, hscan⟩, hcode⟩ := Sketch.presents_scanned hu
  have hclock : u.clock = d.sketch.clock := by rw [hscan]; rfl
  have hstore : u.store = d.sketch.store := by rw [hscan]; rfl
  have htrace : u.trace = d.sketch.trace := by rw [hscan]; rfl
  have hs : u.Strings := ⟨hcode, hstore ▸ hd.store.pupa.terminated⟩
  obtain ⟨t, fx, ht, hfx, hopen, hlog⟩ := hs.checkIDAccess world
  replace hlog := hlog (hopens _)
  rw [hclock, hstore] at hlog
  rw [htrace] at hfx
  have hstep : (Turn.task (.serialEvent1 arrived junk)).step world d =
      .ok { d with sketch := t } := by
    apply step_task_ok
    rw [Task.step, Sketch.serialEvent1_eq, hu]
    exact ht
  have hdecision : (Turn.task (.serialEvent1 arrived junk)).decision d = some u.verdict := by
    rw [decision, hu]
    rfl
  have hten := hhex.code.take
  rw [Audited, hdecision]
  constructor
  · rintro ⟨e, he, hrecord, -⟩ hzero
    obtain rfl := Except.ok.inj (hstep.symm.trans he)
    obtain ⟨name, hname⟩ := u.record_verdict (world.rtc d.sketch.clock)
    rw [hname] at hrecord
    have heq := List.append_cancel_left (hrecord.symm.trans hlog)
    have hmem := mem_of_logRecord_eq heq hzero
    simp only [List.mem_append, zero_notMem_content, u.zero_notMem_username, false_or] at hmem
    exact absurd hmem (by decide)
  · intro hzero
    have hword : ∀ c ∈ u.code.toList.take 10, isWord c = true := fun c hc =>
      isWord_of_isHex ((hten c hc).resolve_left fun h0 => hzero (h0 ▸ hc))
    have hends := Sketch.presents_code hu
    have hne : u.code.toList.take 10 ≠ [] := fun h => by
      have hlen := congrArg List.length h
      simp at hlen
    have hcont := content_trimAt_code hends hword hne
    have hpresented : u.presented = u.code.toList.take 10 := by
      have hstrip := strip_content_trimAt (p := 0) hcode
      rw [List.drop_zero, List.drop_zero, hcont, strip_words hword] at hstrip
      exact hstrip.symm
    rw [hcont] at hlog
    refine ⟨_, hstep, ?_, ?_, ?_⟩
    · rw [Sketch.record_verdict_of_presented hpresented]
      exact hlog
    · rw [Device.since_of_trace hfx, hopen, Sketch.opens_verdict hpresented]
    · rw [Sketch.id_verdict]
      intro h13
      rcases hten 13 h13 with h | h <;> exact absurd h (by decide)

/-- A turn without a decision is audited exactly when it stays inside the arrays. -/
theorem audited_quiet {turn : Turn} (hd : d.Running) (hdecision : turn.decision d = none)
    (hquiet : ∀ e, turn.step world d = .ok e →
      e.log = d.log ∧ Effect.digitalWrite DOOR true ∉ d.since e) :
    turn.Audited world d ↔ turn.Safe d := by
  rw [Audited, hdecision, ← step_ok_iff world hd]
  constructor
  · rintro ⟨e, he, -⟩
    exact ⟨e, he⟩
  · rintro ⟨e, he⟩
    exact ⟨e, he, hquiet e he⟩

/-- Which turns are audited, over a log that opens. -/
theorem audited_iff (hopens : ∀ time, world.logOpens time = true) (hd : d.Running)
    (hhex : d.sketch.Hex) {turn : Turn} (hturn : turn.Hex) :
    turn.Audited world d ↔ turn.Safe d ∧ turn.complete d = true := by
  have hidle : ∀ {a : Task}, a.presents d.sketch = none →
      (Turn.task a).decision d = none → (Turn.task a).complete d = true →
      ((Turn.task a).Audited world d ↔ (Turn.task a).Safe d ∧ (Turn.task a).complete d = true) :=
    fun hnone hdecision hcomplete => by
      rw [audited_quiet hd hdecision fun e he => task_quiet hd hnone he, hcomplete]
      exact (and_iff_left rfl).symm
  cases turn with
  | processCommand o tmp =>
    refine (audited_quiet hd rfl fun e he => ?_).trans (and_iff_left rfl).symm
    obtain ⟨store, board, hsketch, hkept, -⟩ := step_processCommand hd.store he
    rw [since_processCommand hd.store he, Device.log, hsketch]
    exact ⟨hkept.log, List.not_mem_nil⟩
  | task a =>
    cases a with
    | unlockButton pressed =>
      cases pressed with
      | false => exact hidle rfl rfl rfl
      | true =>
        refine (audited_button hopens hd).trans ?_
        rw [Safe, complete, decide_eq_true_iff]
        exact ⟨fun h => ⟨fun _ => h, h⟩, fun h => h.2⟩
    | serialEvent1 arrived junk =>
      cases hu : (d.sketch.arrive arrived).presents junk with
      | none =>
        refine hidle hu ?_ ?_
        · rw [decision, hu]
          rfl
        · rw [complete, hu]
          rfl
      | some u =>
        rw [audited_card hopens hd hu ((hhex.arrive hturn).presents hu), complete, hu, Safe]
        simp
    | update => exact hidle rfl rfl rfl
    | updateTime => exact hidle rfl rfl rfl
    | wait ms => exact hidle rfl rfl rfl

end Turn

end SmartDoor
